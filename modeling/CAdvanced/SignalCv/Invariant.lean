import CAdvanced.SignalCv.Model

/-!
# SignalCv — Invariant

`done` is 0 until the first worker stores it, under the mutex, and stays 1 from then on; so
whoever finds it 0 goes to sleep before anybody can store it, and nobody goes to sleep
afterwards. From there on only the signals count, of which each worker has one: those who
sleep and the signals so far are together at most as many as those who wait, or nobody
sleeps at all.
-/

namespace CAdvanced.SignalCv

open Interleave System

/-! ## Places -/

/-- Holds the mutex. -/
@[simp] def Thread.inLock : Thread → Bool
  | .signalDone .storeDone | .signalDone .signal | .signalDone .unlock => true
  | .signalWait .testDone | .signalWait .wait | .signalWait .unlock => true
  | _ => false

/-- Is one of those who wait. -/
@[simp] def Thread.waits : Thread → Bool
  | .signalWait _ | .printLast | .mainReturned => true
  | _ => false

/-- Has signalled. -/
@[simp] def Thread.signalled : Thread → Nat
  | .signalDone .unlock | .workerReturned => 1
  | _ => 0

/-- Has returned. -/
@[simp] def Thread.isFinished : Thread → Bool
  | .workerReturned | .mainReturned => true
  | _ => false

/-- The line that the next step prints. -/
@[simp] def Thread.line : Thread → Option Line
  | .printFirst => some .first
  | .printLast => some .last
  | _ => none

variable {ι : Type}

/-- What a thread knows about `done` and the output. -/
@[simp] def Thread.Ok (s : Shared ι) : Thread → Prop
  | .signalDone .lock | .signalDone .storeDone => Line.first ∈ s.printed
  | .signalDone .signal | .signalDone .unlock | .workerReturned => s.s.done = 1
  | .signalWait .wait => s.s.done = 0
  | .signalWait .unlock | .printLast | .mainReturned => s.s.done = 1
  | _ => True

/-! ## One step -/

/-- How a step of thread `i` changes who sleeps. -/
inductive CondMoves [DecidableEq ι] (i j : ι) (q : WaitQueue ι) : Thread → WaitQueue ι → Prop
  | keep {t : Thread} (h : t ≠ .signalWait .wait) (h' : t ≠ .signalDone .signal) :
      CondMoves i j q t q
  | sleep : CondMoves i j q (.signalWait .wait) (q.enter i)
  | wake : q j = true → CondMoves i j q (.signalDone .signal) (q.leave j)
  | lost : (∀ k, q k = false) → CondMoves i j q (.signalDone .signal) q

/-- One step of thread `i` from `t` to `t'`. -/
structure ThreadSpec [DecidableEq ι] (i j : ι) (s s' : Shared ι) (t t' : Thread) : Prop where
  lock : Mutex.Moves i s.s.lock t.inLock s'.s.lock t'.inLock
  printed : s'.printed = s.printed ++ t.line.toList
  done : s'.s.done = s.s.done ∨ (t = .signalDone .storeDone ∧ s'.s.done = 1)
  cond : CondMoves i j s.s.cond t s'.s.cond
  awake : s.s.cond i = true → t ≠ .signalWait .wake
  sleeps : t = .signalWait .wait → t' = .signalWait .wake
  signalled : t'.signalled = t.signalled ∨ (t = .signalDone .signal ∧ t'.signalled = 1)
  waits : t'.waits = t.waits
  ok : t.Ok s → s.s.done = 0 ∨ s.s.done = 1 → t'.Ok s'

variable [DecidableEq ι] [Fintype ι]

theorem signalDone_spec {i j : ι} {s s' : Synchronizer ι} {out : List Line} {p : SignalDone}
    {k : Ctl SignalDone} (h : signalDone i j s p = some (s', k)) :
    ThreadSpec i j ⟨s, out⟩ ⟨s', out⟩ (.signalDone p)
      (k.resume .signalDone .workerReturned) := by
  cases p with
  | lock =>
      simp only [signalDone, Option.map_eq_some_iff, Mutex.lock_eq_some, Prod.mk.injEq] at h
      obtain ⟨l, ⟨hfree, rfl⟩, rfl, rfl⟩ := h
      constructor <;> simp
      · rw [hfree]
        exact .lock
      · exact .keep (by simp) (by simp)
      · exact fun h _ => h
  | storeDone =>
      cases h
      constructor <;> simp
      · exact .keep
      · exact .keep (by simp) (by simp)
  | signal =>
      simp only [signalDone, Option.map_eq_some_iff, Prod.mk.injEq] at h
      obtain ⟨q, hq, rfl, rfl⟩ := h
      constructor <;> simp
      · exact .keep
      · unfold WaitQueue.signal at hq
        split at hq
        case isTrue hj => cases hq; exact .wake hj
        case isFalse =>
          split at hq
          case isTrue hnone => cases hq; exact .lost hnone
          case isFalse => cases hq
      · exact fun h _ => h
  | unlock =>
      cases h
      constructor <;> simp
      · exact .unlock
      · exact .keep (by simp) (by simp)
      · exact fun h _ => h

omit [Fintype ι] in
theorem signalWait_spec {i j : ι} {s s' : Synchronizer ι} {out : List Line} {p : SignalWait}
    {k : Ctl SignalWait} (h : signalWait i s p = some (s', k)) :
    ThreadSpec i j ⟨s, out⟩ ⟨s', out⟩ (.signalWait p) (k.resume .signalWait .printLast) := by
  cases p with
  | lock =>
      simp only [signalWait, Option.map_eq_some_iff, Mutex.lock_eq_some, Prod.mk.injEq] at h
      obtain ⟨l, ⟨hfree, rfl⟩, rfl, rfl⟩ := h
      constructor <;> simp
      · rw [hfree]
        exact .lock
      · exact .keep (by simp) (by simp)
  | testDone =>
      simp only [signalWait, Option.some.injEq, Prod.mk.injEq] at h
      obtain ⟨rfl, rfl⟩ := h
      by_cases hdone : s.done = 0
      · constructor <;> simp [hdone]
        · exact .keep
        · exact .keep (by simp) (by simp)
      · constructor <;> simp [hdone]
        · exact .keep
        · exact .keep (by simp) (by simp)
  | wait =>
      cases h
      constructor <;> simp
      · exact .unlock
      · exact .sleep
  | wake =>
      simp only [signalWait] at h
      split at h
      case isTrue => cases h
      case isFalse hawake =>
        simp only [Option.map_eq_some_iff, Mutex.lock_eq_some, Prod.mk.injEq] at h
        obtain ⟨l, ⟨hfree, rfl⟩, rfl, rfl⟩ := h
        constructor <;> simp [hawake]
        · rw [hfree]
          exact .lock
        · exact .keep (by simp) (by simp)
  | unlock =>
      cases h
      constructor <;> simp
      · exact .unlock
      · exact .keep (by simp) (by simp)
      · exact fun h _ => h

theorem thread_spec {i j : ι} {s s' : Shared ι} {t t' : Thread}
    (h : thread i j s t = some (s', t')) : ThreadSpec i j s s' t t' := by
  cases t with
  | printFirst =>
      cases h
      constructor <;> simp
      · exact .keep
      · exact .keep (by simp) (by simp)
  | printLast =>
      cases h
      constructor <;> simp
      · exact .keep
      · exact .keep (by simp) (by simp)
      · exact fun h _ => h
  | signalDone p =>
      simp only [thread, Option.map_eq_some_iff, Prod.mk.injEq, Prod.exists] at h
      obtain ⟨s₁, k, hk, rfl, rfl⟩ := h
      exact signalDone_spec hk
  | signalWait p =>
      simp only [thread, Option.map_eq_some_iff, Prod.mk.injEq, Prod.exists] at h
      obtain ⟨s₁, k, hk, rfl, rfl⟩ := h
      exact signalWait_spec hk
  | workerReturned | mainReturned => cases h

/-! ## The invariant -/

/-- In front of every "last" stands a "first". -/
def InOrder (printed : List Line) : Prop :=
  ∀ pre post, printed = pre ++ .last :: post → Line.first ∈ pre

theorem InOrder.append {printed : List Line} {line : Option Line} (h : InOrder printed)
    (hline : line = some .last → Line.first ∈ printed) : InOrder (printed ++ line.toList) := by
  cases line with
  | none => simpa using h
  | some l =>
      intro pre post heq
      -- the "last" is the new line, or it was there
      rcases List.eq_nil_or_concat post with rfl | ⟨post, x, rfl⟩
      · obtain ⟨rfl, hlast⟩ := List.append_inj' heq rfl
        exact hline (congrArg some (List.cons.inj hlast).1)
      · rw [List.concat_eq_append, ← List.cons_append, ← List.append_assoc] at heq
        exact h pre post (List.append_inj' heq rfl).1

/-- How many threads wait. -/
def waiters (waits : ι → Bool) : Nat := ∑ i, (waits i).toNat

/-- How many threads signal. -/
def workers (waits : ι → Bool) : Nat := ∑ i, (!waits i).toNat

/-- The invariant. -/
structure Inv (waits : ι → Bool) (c : State ι) : Prop where
  lock : ∀ i, (c.threads i).inLock = true ↔ c.shared.s.lock = some i
  ok : ∀ i, (c.threads i).Ok c.shared
  roles : ∀ i, (c.threads i).waits = waits i
  asleep : ∀ i, c.shared.s.cond i = true → c.threads i = .signalWait .wake
  done : c.shared.s.done = 0 ∨ c.shared.s.done = 1
  first : c.shared.s.done = 1 → Line.first ∈ c.shared.printed
  order : InOrder c.shared.printed
  early : c.shared.s.done = 0 → total Thread.signalled c.threads = 0
  count : c.shared.s.done = 1 → c.shared.s.cond.sleepers = 0
    ∨ c.shared.s.cond.sleepers + total Thread.signalled c.threads ≤ waiters waits

variable {waits : ι → Bool} {c c' : State ι}

omit [DecidableEq ι] in
theorem inv_start : Inv waits (start waits) where
  lock := by
    intro i
    cases hi : waits i <;> simp [start, signalInit, hi]
  ok := by
    intro i
    cases hi : waits i <;> simp [start, signalInit, hi]
  roles := by
    intro i
    cases hi : waits i <;> simp [start, hi]
  asleep := by simp [start, signalInit]
  done := .inl rfl
  first := by simp [start, signalInit]
  order := by simp [InOrder, start]
  early := by
    intro _
    refine total_eq_zero fun i => ?_
    cases hi : waits i <;> simp [start, hi]
  count := by simp [start, signalInit]

omit [DecidableEq ι] in
/-- Only those who wait sleep. -/
theorem Inv.sleepers_le (hI : Inv waits c) : c.shared.s.cond.sleepers ≤ waiters waits := by
  refine Finset.sum_le_sum fun i _ => ?_
  cases hi : c.shared.s.cond i with
  | false => exact Nat.zero_le _
  | true =>
      have hw := hI.roles i
      rw [hI.asleep i hi] at hw
      rw [← hw]
      rfl

omit [DecidableEq ι] [Fintype ι] in
/-- What another thread knows is not changed by a step of `i`. -/
theorem Thread.Ok.frame {s s' : Shared ι} {t : Thread} (h : t.Ok s)
    (hprinted : Line.first ∈ s.printed → Line.first ∈ s'.printed)
    (hdone : s'.s.done = s.s.done ∨ (s'.s.done = 1 ∧ t.inLock = false)) : t.Ok s' := by
  cases t with
  | signalDone p =>
      cases p with
      | lock | storeDone => exact hprinted h
      | signal | unlock =>
          rcases hdone with hsame | ⟨hone, -⟩
          · exact hsame.trans h
          · exact hone
  | signalWait p =>
      cases p with
      | wait =>
          rcases hdone with hsame | ⟨-, hfree⟩
          · exact hsame.trans h
          · cases hfree
      | unlock =>
          rcases hdone with hsame | ⟨hone, -⟩
          · exact hsame.trans h
          · exact hone
      | _ => trivial
  | workerReturned | printLast | mainReturned =>
      rcases hdone with hsame | ⟨hone, -⟩
      · exact hsame.trans h
      · exact hone
  | printFirst => trivial

section Run
variable {i j : ι}

/-- What has been printed stays printed. -/
theorem run_printed (h : c.step (thread i j) i = some c')
    (hmem : Line.first ∈ c.shared.printed) : Line.first ∈ c'.shared.printed := by
  rw [(thread_spec (Conf.step_mover h)).printed]
  exact List.mem_append_left _ hmem

theorem Inv.run_ok (hI : Inv waits c) (h : c.step (thread i j) i = some c') (k : ι) :
    (c'.threads k).Ok c'.shared := by
  have hspec := thread_spec (Conf.step_mover h)
  refine Conf.step_forall (A := fun s t => t.Ok s) h (hspec.ok (hI.ok i) hI.done) ?_ k
  intro k hk
  refine (hI.ok k).frame (run_printed h) ?_
  rcases hspec.done with hsame | ⟨hat, hone⟩
  · exact .inl hsame
  · -- the mover holds the mutex, so `k` does not
    refine .inr ⟨hone, ?_⟩
    rw [Bool.eq_false_iff]
    intro hin
    have hi := (hI.lock i).mp (by rw [hat]; rfl)
    exact hk (Option.some.inj (((hI.lock k).mp hin).symm.trans hi))

theorem Inv.run_roles (hI : Inv waits c) (h : c.step (thread i j) i = some c') (k : ι) :
    (c'.threads k).waits = waits k := by
  by_cases hk : k = i
  · subst hk
    exact (thread_spec (Conf.step_mover h)).waits.trans (hI.roles k)
  · rw [Conf.step_threads_ne h hk]
    exact hI.roles k

/-- The mover sleeps behind its step if it has gone to sleep by it. -/
theorem Inv.run_asleep_self (hI : Inv waits c) (h : c.step (thread i j) i = some c')
    (hasleep : c'.shared.s.cond i = true) : c'.threads i = .signalWait .wake := by
  have hspec := thread_spec (Conf.step_mover h)
  have hcond := hspec.cond
  have hsleeps := hspec.sleeps
  have hawake := hspec.awake
  have hold := hI.asleep i
  generalize c.threads i = t at hcond hsleeps hawake hold
  generalize c'.shared.s.cond = q at hcond hasleep
  cases hcond with
  | keep _ _ => exact absurd (hold hasleep) (hawake hasleep)
  | sleep => exact hsleeps rfl
  | wake hj =>
      by_cases hij : i = j
      · rw [hij, WaitQueue.leave, Function.update_self] at hasleep
        cases hasleep
      · rw [WaitQueue.leave_of_ne hij] at hasleep
        cases hold hasleep
  | lost hnone =>
      rw [hnone i] at hasleep
      cases hasleep

/-- Whoever else sleeps behind a step has slept before it. -/
theorem run_asleep_of_ne (h : c.step (thread i j) i = some c') {k : ι} (hk : k ≠ i)
    (hasleep : c'.shared.s.cond k = true) : c.shared.s.cond k = true := by
  have hcond := (thread_spec (Conf.step_mover h)).cond
  generalize c.threads i = t at hcond
  generalize c'.shared.s.cond = q at hcond hasleep
  cases hcond with
  | keep _ _ => exact hasleep
  | sleep => rwa [WaitQueue.enter_of_ne hk] at hasleep
  | wake hj =>
      by_cases hkj : k = j
      · rw [hkj]
        exact hj
      · rwa [WaitQueue.leave_of_ne hkj] at hasleep
  | lost hnone => exact hasleep

theorem Inv.run_asleep (hI : Inv waits c) (h : c.step (thread i j) i = some c') (k : ι)
    (hasleep : c'.shared.s.cond k = true) : c'.threads k = .signalWait .wake := by
  by_cases hk : k = i
  · subst hk
    exact hI.run_asleep_self h hasleep
  · rw [Conf.step_threads_ne h hk]
    exact hI.asleep k (run_asleep_of_ne h hk hasleep)

theorem Inv.run_first (hI : Inv waits c) (h : c.step (thread i j) i = some c')
    (hdone : c'.shared.s.done = 1) : Line.first ∈ c'.shared.printed := by
  have hown := hI.ok i
  rcases (thread_spec (Conf.step_mover h)).done with hsame | ⟨hat, -⟩
  · exact run_printed h (hI.first (hsame.symm.trans hdone))
  · rw [hat] at hown
    exact run_printed h hown

theorem Inv.run_order (hI : Inv waits c) (h : c.step (thread i j) i = some c') :
    InOrder c'.shared.printed := by
  have hown := hI.ok i
  rw [(thread_spec (Conf.step_mover h)).printed]
  refine hI.order.append fun hline => hI.first ?_
  generalize c.threads i = t at hown hline
  cases t with
  | printLast => exact hown
  | _ => cases hline

theorem Inv.run_early (hI : Inv waits c) (h : c.step (thread i j) i = some c')
    (hzero : c'.shared.s.done = 0) : total Thread.signalled c'.threads = 0 := by
  have hspec := thread_spec (Conf.step_mover h)
  have hown := hI.ok i
  have hsum := Conf.total_step Thread.signalled h
  rcases hspec.done with hsame | ⟨-, hone⟩
  · have hold := hI.early (hsame.symm.trans hzero)
    rcases hspec.signalled with hkeep | ⟨hat, -⟩
    · omega
    · -- who signals has stored `done`
      rw [hat] at hown
      rw [hsame, hown] at hzero
      cases hzero
  · rw [hone] at hzero
    cases hzero

theorem Inv.run_count (hI : Inv waits c) (h : c.step (thread i j) i = some c')
    (hone : c'.shared.s.done = 1) : c'.shared.s.cond.sleepers = 0
      ∨ c'.shared.s.cond.sleepers + total Thread.signalled c'.threads ≤ waiters waits := by
  have hspec := thread_spec (Conf.step_mover h)
  have hown := hI.ok i
  have hsum := Conf.total_step Thread.signalled h
  have hcond := hspec.cond
  have hsignalled := hspec.signalled
  have hdone := hspec.done
  have hcount := hI.count
  have hearly := hI.early
  have hle := hI.sleepers_le
  generalize c.threads i = t at hown hcond hsignalled hdone hsum
  generalize c'.shared.s.cond = q at hcond
  cases hcond with
  | keep _ hnot =>
      have hsame : (c'.threads i).signalled = t.signalled :=
        hsignalled.resolve_right fun hat => hnot hat.1
      rcases hI.done with hzero | hold
      · have := hearly hzero
        exact .inr (by omega)
      · exact (hcount hold).imp id fun h => by omega
  | sleep =>
      -- nobody goes to sleep once `done` is stored
      have hzero : c.shared.s.done = 0 := hown
      have hsame := hdone.resolve_right fun hat => by cases hat.1
      rw [hsame, hzero] at hone
      cases hone
  | wake hj =>
      have hleave := WaitQueue.sleepers_leave hj
      have hbefore := (hcount hown).resolve_left (by omega)
      have hle : (c'.threads i).signalled ≤ 1 := by
        rcases hsignalled with hsame | ⟨-, hat⟩
        · rw [hsame]
          exact Nat.zero_le 1
        · exact Nat.le_of_eq hat
      rw [show Thread.signalled (.signalDone .signal) = 0 from rfl] at hsum
      exact .inr (by omega)
  | lost hnone => exact .inl (WaitQueue.sleepers_eq_zero.mpr hnone)

/-- **A step of a thread** keeps the invariant. -/
theorem Inv.run (hI : Inv waits c) (h : c.step (thread i j) i = some c') : Inv waits c' where
  lock := (thread_spec (Conf.step_mover h)).lock.holder hI.lock rfl rfl fun k hk => by
    rw [Conf.step_threads_ne h hk]
  ok := hI.run_ok h
  roles := hI.run_roles h
  asleep := hI.run_asleep h
  done := by
    rcases (thread_spec (Conf.step_mover h)).done with hsame | ⟨-, hone⟩
    · rw [hsame]
      exact hI.done
    · exact .inr hone
  first := hI.run_first h
  order := hI.run_order h
  early := hI.run_early h
  count := hI.run_count h

end Run

/-- A sleeper that wakes up by itself changes nothing but that it is awake. -/
theorem Inv.wakes {i : ι} (hI : Inv waits c) (h : next (.spurious i) c = some c') :
    Inv waits c' := by
  simp only [next, Option.ite_none_right_eq_some, Option.some.injEq] at h
  obtain ⟨hi, rfl⟩ := h
  have hfewer := WaitQueue.sleepers_leave hi
  refine ⟨hI.lock, fun k => ?_, hI.roles, fun k hk => ?_, hI.done, hI.first, hI.order, hI.early,
    fun hone => ?_⟩
  · exact (hI.ok k).frame id (.inl rfl)
  · by_cases hki : k = i
    · rw [hki]
      exact hI.asleep i hi
    · have hasleep : c.shared.s.cond.leave i k = true := hk
      rw [WaitQueue.leave_of_ne hki] at hasleep
      exact hI.asleep k hasleep
  · have hcount := hI.count hone
    rcases hcount with hnone | hle
    · omega
    · refine .inr ?_
      show (c.shared.s.cond.leave i).sleepers + total Thread.signalled c.threads ≤ _
      omega

theorem inv_inductive (waits : ι → Bool) : (program waits).Inductive (Inv waits) where
  init := inv_start
  step := by
    intro l c c' hI h
    cases l with
    | run i j => exact hI.run h
    | spurious i => exact hI.wakes h

end CAdvanced.SignalCv
