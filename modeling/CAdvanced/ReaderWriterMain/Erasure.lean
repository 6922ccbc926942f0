import CAdvanced.ReaderWriterMain.Model

/-!
# ReaderWriterMain — Erasure

When one lock is another one with extra, silent steps, the program over the
first is the program over the second with the same extra steps: erasing them
from a run leaves a run, with the same critical-section entries and exits in
the same order. A `LockErasure` gives, operation by operation, the program
points that are only names for a point of the other lock and the steps that
disappear.
-/

namespace CAdvanced.ReaderWriterMain

open Interleave System

/-- The operation `f` is `g` with extra steps: a step from a `silent` point
changes nothing that is left after erasing, any other step is a step of `g`. -/
def ErasesTo {L L' P P' : Type} (lock : L → L') (point : P → P') (silent : P → Bool)
    (f : L → P → Option (L × Ctl P)) (g : L' → P' → Option (L' × Ctl P')) : Prop :=
  ∀ {l l' : L} {p : P} {n : Ctl P}, f l p = some (l', n) →
    if silent p then lock l' = lock l ∧ n.map point = .goto (point p)
    else g (lock l) (point p) = some (lock l', n.map point)

/-- `k` is `k'` with extra steps. -/
structure LockErasure {L A R B W L' A' R' B' W' : Type} (k : LockCode L A R B W)
    (k' : LockCode L' A' R' B' W') where
  lock : L → L'
  acqR : A → A'
  relR : R → R'
  acqW : B → B'
  relW : W → W'
  silentAcqR : A → Bool
  silentAcqW : B → Bool
  silentRelW : W → Bool
  init : lock k.init = k'.init
  startAcqR : acqR k.acquireReadStart = k'.acquireReadStart
  startRelR : relR k.releaseReadStart = k'.releaseReadStart
  startAcqW : acqW k.acquireWriteStart = k'.acquireWriteStart
  startRelW : relW k.releaseWriteStart = k'.releaseWriteStart
  stepAcqR : ErasesTo lock acqR silentAcqR k.acquireRead k'.acquireRead
  stepRelR : ErasesTo lock relR (fun _ => false) k.releaseRead k'.releaseRead
  stepAcqW : ErasesTo lock acqW silentAcqW k.acquireWrite k'.acquireWrite
  stepRelW : ErasesTo lock relW silentRelW k.releaseWrite k'.releaseWrite

/-! ## Critical-section events -/

/-- Inside the critical section: back from acquire, release not yet called. -/
def Thread.inside {A R B W : Type} : Thread A R B W → Bool
  | .reader ⟨.loadValue, _⟩ | .reader ⟨.printValue _, _⟩ => true
  | .writer ⟨.loadValue, _⟩ | .writer ⟨.storeValue _, _⟩ | .writer ⟨.loadPrinted, _⟩
  | .writer ⟨.printValue _, _⟩ => true
  | _ => false

/-- A thread enters or leaves its critical section, and what `readers` and
`value` are then. -/
structure CsEvent (ι : Type) where
  tid : ι
  enters : Bool
  readers : Int
  value : Int
  deriving DecidableEq, Repr

section Events
variable {L A R B W : Type} (k : LockCode L A R B W) (numReaders numWriters loops : Nat)

/-- What the step of thread `i` in `c` shows to an observer of the critical
sections. -/
def csEvent (readers : L → Int) (i : Tid numReaders numWriters)
    (c : Conf (Tid numReaders numWriters) (Shared L) (Thread A R B W)) :
    Option (CsEvent (Tid numReaders numWriters)) :=
  ((main k numReaders numWriters loops).next i c).bind fun c' =>
    if (c.threads i).inside = (c'.threads i).inside then none
    else some ⟨i, (c'.threads i).inside, readers c'.shared.lock, c'.shared.value⟩

end Events

/-! ## The erasure of a run -/

namespace LockErasure

variable {L A R B W L' A' R' B' W' : Type} {k : LockCode L A R B W}
  {k' : LockCode L' A' R' B' W'} (e : LockErasure k k')

def shared (s : Shared L) : Shared L' := ⟨e.lock s.lock, s.value⟩

def reader : Reader A R → Reader A' R'
  | ⟨.loop, i⟩ => ⟨.loop, i⟩
  | ⟨.acquire p, i⟩ => ⟨.acquire (e.acqR p), i⟩
  | ⟨.loadValue, i⟩ => ⟨.loadValue, i⟩
  | ⟨.printValue v, i⟩ => ⟨.printValue v, i⟩
  | ⟨.release p, i⟩ => ⟨.release (e.relR p), i⟩
  | ⟨.finished, i⟩ => ⟨.finished, i⟩

def writer : Writer B W → Writer B' W'
  | ⟨.loop, i⟩ => ⟨.loop, i⟩
  | ⟨.acquire p, i⟩ => ⟨.acquire (e.acqW p), i⟩
  | ⟨.loadValue, i⟩ => ⟨.loadValue, i⟩
  | ⟨.storeValue r, i⟩ => ⟨.storeValue r, i⟩
  | ⟨.loadPrinted, i⟩ => ⟨.loadPrinted, i⟩
  | ⟨.printValue v, i⟩ => ⟨.printValue v, i⟩
  | ⟨.release p, i⟩ => ⟨.release (e.relW p), i⟩
  | ⟨.finished, i⟩ => ⟨.finished, i⟩

def thread : Thread A R B W → Thread A' R' B' W'
  | .reader r => .reader (e.reader r)
  | .writer w => .writer (e.writer w)

/-- The thread's next step disappears. -/
def silent : Thread A R B W → Bool
  | .reader ⟨.acquire p, _⟩ => e.silentAcqR p
  | .writer ⟨.acquire p, _⟩ => e.silentAcqW p
  | .writer ⟨.release p, _⟩ => e.silentRelW p
  | _ => false

/-- The erased configuration. -/
def conf {ι : Type} (c : Conf ι (Shared L) (Thread A R B W)) :
    Conf ι (Shared L') (Thread A' R' B' W') :=
  ⟨e.shared c.shared, fun i => e.thread (c.threads i)⟩

/-- The steps that stay, as a schedule of the erased program. -/
def visible {ι : Type} (i : ι) (c : Conf ι (Shared L) (Thread A R B W)) : Option ι :=
  if e.silent (c.threads i) then none else some i

/-- One step of a thread, erased: it disappears when it is silent, and is the
same step over `k'` when it is not. -/
def StepErases (loops : Nat) (s s' : Shared L) (t t' : Thread A R B W) : Prop :=
  if e.silent t then e.shared s' = e.shared s ∧ e.thread t' = e.thread t
  else ReaderWriterMain.thread k' loops (e.shared s) (e.thread t)
    = some (e.shared s', e.thread t')

theorem reader_step {loops : Nat} {s s' : Shared L} {r r' : Reader A R}
    (h : ReaderWriterMain.reader k loops s r = some (s', r')) :
    e.StepErases loops s s' (.reader r) (.reader r') := by
  obtain ⟨pc, i⟩ := r
  cases pc with
  | loop =>
      simp only [ReaderWriterMain.reader, Option.some.injEq, Prod.mk.injEq] at h
      obtain ⟨rfl, rfl⟩ := h
      by_cases hi : i < loops
      · simp [StepErases, silent, ReaderWriterMain.thread, ReaderWriterMain.reader, thread,
          reader, hi, e.startAcqR]
      · simp [StepErases, silent, ReaderWriterMain.thread, ReaderWriterMain.reader, thread,
          reader, hi]
  | acquire p =>
      simp only [ReaderWriterMain.reader, Option.map_eq_some_iff, Prod.exists,
        Prod.mk.injEq] at h
      obtain ⟨l', n, hl, rfl, rfl⟩ := h
      have herase := e.stepAcqR hl
      cases hp : e.silentAcqR p with
      | true => cases n <;> simp_all [StepErases, silent, thread, reader, shared]
      | false =>
          cases n <;> simp_all [StepErases, silent, thread, reader, shared,
            ReaderWriterMain.thread, ReaderWriterMain.reader]
  | loadValue | printValue v =>
      simp only [ReaderWriterMain.reader, Option.some.injEq, Prod.mk.injEq] at h
      obtain ⟨rfl, rfl⟩ := h
      simp [StepErases, silent, ReaderWriterMain.thread, ReaderWriterMain.reader, thread,
        reader, shared, e.startRelR]
  | release p =>
      simp only [ReaderWriterMain.reader, Option.map_eq_some_iff, Prod.exists,
        Prod.mk.injEq] at h
      obtain ⟨l', n, hl, rfl, rfl⟩ := h
      have herase := e.stepRelR hl
      cases n <;> simp_all [StepErases, silent, thread, reader, shared,
        ReaderWriterMain.thread, ReaderWriterMain.reader]
  | finished => cases h

theorem writer_step {loops : Nat} {s s' : Shared L} {w w' : Writer B W}
    (h : ReaderWriterMain.writer k loops s w = some (s', w')) :
    e.StepErases loops s s' (.writer w) (.writer w') := by
  obtain ⟨pc, i⟩ := w
  cases pc with
  | loop =>
      simp only [ReaderWriterMain.writer, Option.some.injEq, Prod.mk.injEq] at h
      obtain ⟨rfl, rfl⟩ := h
      by_cases hi : i < loops
      · simp [StepErases, silent, ReaderWriterMain.thread, ReaderWriterMain.writer, thread,
          writer, hi, e.startAcqW]
      · simp [StepErases, silent, ReaderWriterMain.thread, ReaderWriterMain.writer, thread,
          writer, hi]
  | acquire p =>
      simp only [ReaderWriterMain.writer, Option.map_eq_some_iff, Prod.exists,
        Prod.mk.injEq] at h
      obtain ⟨l', n, hl, rfl, rfl⟩ := h
      have herase := e.stepAcqW hl
      cases hp : e.silentAcqW p with
      | true => cases n <;> simp_all [StepErases, silent, thread, writer, shared]
      | false =>
          cases n <;> simp_all [StepErases, silent, thread, writer, shared,
            ReaderWriterMain.thread, ReaderWriterMain.writer]
  | loadValue | storeValue r | loadPrinted | printValue v =>
      simp only [ReaderWriterMain.writer, Option.some.injEq, Prod.mk.injEq] at h
      obtain ⟨rfl, rfl⟩ := h
      simp [StepErases, silent, ReaderWriterMain.thread, ReaderWriterMain.writer, thread,
        writer, shared, e.startRelW]
  | release p =>
      simp only [ReaderWriterMain.writer, Option.map_eq_some_iff, Prod.exists,
        Prod.mk.injEq] at h
      obtain ⟨l', n, hl, rfl, rfl⟩ := h
      have herase := e.stepRelW hl
      cases hp : e.silentRelW p with
      | true => cases n <;> simp_all [StepErases, silent, thread, writer, shared]
      | false =>
          cases n <;> simp_all [StepErases, silent, thread, writer, shared,
            ReaderWriterMain.thread, ReaderWriterMain.writer]
  | finished => cases h

theorem thread_step {loops : Nat} {s s' : Shared L} {t t' : Thread A R B W}
    (h : ReaderWriterMain.thread k loops s t = some (s', t')) :
    e.StepErases loops s s' t t' := by
  cases t with
  | reader r =>
      simp only [ReaderWriterMain.thread, Option.map_eq_some_iff, Prod.mk.injEq,
        Prod.exists] at h
      obtain ⟨s', r', hr, rfl, rfl⟩ := h
      exact e.reader_step hr
  | writer w =>
      simp only [ReaderWriterMain.thread, Option.map_eq_some_iff, Prod.mk.injEq,
        Prod.exists] at h
      obtain ⟨s', w', hw, rfl, rfl⟩ := h
      exact e.writer_step hw

/-! ## Runs -/

@[simp] theorem thread_inside (t : Thread A R B W) : (e.thread t).inside = t.inside := by
  cases t with
  | reader r =>
      obtain ⟨pc, i⟩ := r
      cases pc <;> rfl
  | writer w =>
      obtain ⟨pc, i⟩ := w
      cases pc <;> rfl

variable {numReaders numWriters loops : Nat}

theorem conf_initial : e.conf (initial k numReaders numWriters)
    = initial k' numReaders numWriters := by
  have hshared : e.shared (initial k numReaders numWriters).shared
      = (initial k' numReaders numWriters).shared := by
    simp [shared, initial, e.init]
  have hthreads : ∀ i, e.thread ((initial k numReaders numWriters).threads i)
      = (initial k' numReaders numWriters).threads i := by
    rintro (i | i) <;> rfl
  exact congrArg₂ Conf.mk hshared (funext hthreads)

theorem conf_step {i : Tid numReaders numWriters}
    {c c' : Conf (Tid numReaders numWriters) (Shared L) (Thread A R B W)}
    (h : (main k numReaders numWriters loops).next i c = some c') :
    (main k' numReaders numWriters loops).exec (e.visible i c).toList (e.conf c)
      = some (e.conf c') := by
  have hstep := e.thread_step (Conf.step_mover h)
  have hothers : e.conf c'
      = ⟨e.shared c'.shared,
          Function.update (e.conf c).threads i (e.thread (c'.threads i))⟩ := by
    refine congrArg (Conf.mk _) (funext fun j => ?_)
    by_cases hj : j = i
    · subst hj
      rw [Function.update_self]
    · rw [Function.update_of_ne hj, Conf.step_threads_ne h hj]
      rfl
  rw [hothers]
  by_cases hs : e.silent (c.threads i) = true
  · rw [StepErases, if_pos hs] at hstep
    have hself : Function.update (e.conf c).threads i (e.thread (c'.threads i))
        = (e.conf c).threads := by
      rw [hstep.2]
      exact Function.update_eq_self i (e.conf c).threads
    rw [hself, hstep.1, visible, if_pos hs]
    rfl
  · rw [StepErases, if_neg hs] at hstep
    rw [visible, if_neg hs]
    exact exec_singleton.trans (Conf.step_eq_some.mpr ⟨_, _, hstep, rfl⟩)

/-- **Erasing the silent steps of a run leaves a run of the program over `k'`**,
through the erased configurations. -/
theorem simulation : (main k numReaders numWriters loops).Simulation
    (main k' numReaders numWriters loops) e.visible (fun c a => a = e.conf c) where
  init := e.conf_initial.symm
  step := by
    rintro i c c' _ rfl h
    exact ⟨_, e.conf_step h, rfl⟩

/-- A step and its erasure show the same critical-section event. -/
theorem csEvent_visible (readers : L' → Int) {i : Tid numReaders numWriters}
    {c c' : Conf (Tid numReaders numWriters) (Shared L) (Thread A R B W)}
    (h : (main k numReaders numWriters loops).next i c = some c') :
    csEvent k numReaders numWriters loops (fun l => readers (e.lock l)) i c
      = (e.visible i c).bind fun j =>
          csEvent k' numReaders numWriters loops readers j (e.conf c) := by
  have hstep := e.thread_step (Conf.step_mover h)
  have hrun := e.conf_step h
  by_cases hs : e.silent (c.threads i) = true
  · rw [StepErases, if_pos hs] at hstep
    have hinside : (c.threads i).inside = (c'.threads i).inside := by
      rw [← e.thread_inside, ← e.thread_inside (c'.threads i), hstep.2]
    rw [csEvent, h, visible, if_pos hs]
    exact if_pos hinside
  · rw [visible, if_neg hs] at hrun ⊢
    have hnext : (main k' numReaders numWriters loops).next i (e.conf c)
        = some (e.conf c') := exec_singleton.symm.trans hrun
    rw [Option.bind_some, csEvent, csEvent, h, hnext]
    simp only [Option.bind_some, conf, thread_inside, shared]

end LockErasure
end CAdvanced.ReaderWriterMain
