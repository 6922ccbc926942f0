import CAdvanced.SignalCv.Invariant
import Mathlib.Algebra.BigOperators.Ring.Finset

/-!
# SignalCv — Progress

Where nobody can move, whoever has not returned sleeps, and all workers have returned. So
somebody can be left asleep only if more threads have gone to sleep than there are signals,
one for each worker; and if more threads wait than signal, some run leaves one asleep: all
of them go to sleep before the first signal.
-/

namespace CAdvanced.SignalCv

open Interleave System

variable {ι : Type} [DecidableEq ι] [Fintype ι] {waits : ι → Bool} {c c' : State ι}

/-- Nobody can move, unless a sleeper wakes up by itself. -/
def Stuck (c : State ι) : Prop := ∀ i j, c.step (thread i j) i = none

/-! ## Who can move -/

/-- A thread that has not returned can move, or waits for the mutex, or sleeps. -/
theorem thread_isSome_or_waits [Nonempty ι] (i : ι) {s : Shared ι} {t : Thread}
    (h : t.isFinished = false) :
    (∃ j, (thread i j s t).isSome) ∨ (s.s.lock ≠ none ∧ t.inLock = false)
      ∨ (s.s.cond i = true ∧ t = .signalWait .wake) := by
  cases t with
  | printFirst | printLast => exact .inl ⟨i, rfl⟩
  | workerReturned | mainReturned => cases h
  | signalDone p =>
      cases p with
      | lock =>
          cases hlock : s.s.lock with
          | none => exact .inl ⟨i, by simp [thread, signalDone, hlock, Mutex.lock]⟩
          | some k => exact .inr (.inl ⟨Option.some_ne_none k, rfl⟩)
      | signal =>
          obtain ⟨j, q, hq⟩ := WaitQueue.exists_signal s.s.cond
          exact .inl ⟨j, by simp [thread, signalDone, hq]⟩
      | storeDone | unlock => exact .inl ⟨i, rfl⟩
  | signalWait p =>
      cases p with
      | lock =>
          cases hlock : s.s.lock with
          | none => exact .inl ⟨i, by simp [thread, signalWait, hlock, Mutex.lock]⟩
          | some k => exact .inr (.inl ⟨Option.some_ne_none k, rfl⟩)
      | wake =>
          cases hcond : s.s.cond i with
          | true => exact .inr (.inr ⟨rfl, rfl⟩)
          | false =>
              cases hlock : s.s.lock with
              | none => exact .inl ⟨i, by simp [thread, signalWait, hcond, hlock, Mutex.lock]⟩
              | some k => exact .inr (.inl ⟨Option.some_ne_none k, rfl⟩)
      | testDone | wait | unlock => exact .inl ⟨i, rfl⟩

omit [Fintype ι] in
theorem Thread.unfinished_of_inLock {t : Thread} (h : t.inLock = true) : t.isFinished = false := by
  cases t <;> simp_all

/-- **Where none of some threads can move**, and none of the others holds the mutex, those
of them that have not returned sleep. -/
theorem Inv.asleep_of_none {A : ι → Prop} (hI : Inv waits c)
    (hnone : ∀ i j, A i → c.step (thread i j) i = none)
    (hholder : ∀ i, c.shared.s.lock = some i → A i) {i : ι} (hA : A i)
    (hi : (c.threads i).isFinished = false) : c.shared.s.cond i = true := by
  have hstays : ∀ k j, A k → ¬ (thread k j c.shared (c.threads k)).isSome := by
    intro k j hk hsome
    obtain ⟨c', hc'⟩ := Conf.step_isSome hsome
    rw [hnone k j hk] at hc'
    cases hc'
  have : Nonempty ι := ⟨i⟩
  -- the mutex is free: its holder could move
  have hfree : c.shared.s.lock = none := by
    rw [Option.eq_none_iff_forall_ne_some]
    intro k hk
    have hin := (hI.lock k).mpr hk
    rcases thread_isSome_or_waits k (s := c.shared) (Thread.unfinished_of_inLock hin)
      with ⟨j, hmove⟩ | ⟨-, hout⟩ | ⟨-, hat⟩
    · exact hstays k j (hholder k hk) hmove
    · rw [hin] at hout
      cases hout
    · rw [hat] at hin
      cases hin
  rcases thread_isSome_or_waits i (s := c.shared) hi with ⟨j, hmove⟩ | ⟨hlock, -⟩ | ⟨hcond, -⟩
  · exact absurd hmove (hstays i j hA)
  · exact absurd hfree hlock
  · exact hcond

/-- Where nobody can move, whoever has not returned sleeps. -/
theorem Inv.asleep_of_stuck (hI : Inv waits c) (hstuck : Stuck c) {i : ι}
    (hi : (c.threads i).isFinished = false) : c.shared.s.cond i = true :=
  hI.asleep_of_none (A := fun _ => True) (fun i j _ => hstuck i j) (fun _ _ => trivial) trivial hi

omit [DecidableEq ι] in
/-- At most all workers have signalled. -/
theorem Inv.signalled_le (hI : Inv waits c) :
    total Thread.signalled c.threads ≤ workers waits := by
  refine Finset.sum_le_sum fun i _ => ?_
  rw [← hI.roles i]
  generalize c.threads i = t
  cases t with
  | signalDone p => cases p <;> simp
  | _ => simp

/-- Where nobody can move, all workers have signalled. -/
theorem Inv.signalled_of_stuck (hI : Inv waits c) (hstuck : Stuck c) :
    total Thread.signalled c.threads = workers waits := by
  refine Finset.sum_congr rfl fun i _ => ?_
  rw [← hI.roles i]
  cases hfinished : (c.threads i).isFinished with
  | true =>
      generalize c.threads i = t at hfinished
      cases t <;> simp_all
  | false =>
      rw [hI.asleep i (hI.asleep_of_stuck hstuck hfinished)]
      rfl

/-- With a signal for each that waits nobody is left asleep. -/
theorem Inv.finished_of_stuck (hI : Inv waits c) (hstuck : Stuck c)
    (hle : waiters waits ≤ workers waits) (i : ι) : (c.threads i).isFinished = true := by
  by_contra hi
  rw [Bool.not_eq_true] at hi
  have hasleep := hI.asleep_of_stuck hstuck hi
  have hpos := WaitQueue.sleepers_pos hasleep
  have hall := hI.signalled_of_stuck hstuck
  have hsleepers := hI.sleepers_le
  rcases hI.done with hzero | hone
  · have := hI.early hzero
    omega
  · rcases hI.count hone with hnone | hcount
    · omega
    · omega

/-! ## Counting steps -/

/-- The steps that a thread has left; one that sleeps has three less. -/
def Thread.steps : Thread → Nat
  | .printFirst => 8
  | .signalDone .lock => 7
  | .signalDone .storeDone => 6
  | .signalDone .signal => 5
  | .signalDone .unlock => 1
  | .workerReturned => 0
  | .signalWait .lock | .signalWait .wake => 4
  | .signalWait .testDone => 3
  | .signalWait .wait | .signalWait .unlock => 2
  | .printLast => 1
  | .mainReturned => 0

/-- The steps that are left. -/
def State.steps (c : State ι) : Nat :=
  total Thread.steps c.threads - 3 * c.shared.s.cond.sleepers

omit [DecidableEq ι] in
theorem Inv.sleepers_le_steps (hI : Inv waits c) :
    3 * c.shared.s.cond.sleepers ≤ total Thread.steps c.threads := by
  rw [WaitQueue.sleepers, Finset.mul_sum]
  refine Finset.sum_le_sum fun i _ => ?_
  cases hi : c.shared.s.cond i with
  | false => exact Nat.zero_le _
  | true =>
      rw [hI.asleep i hi]
      decide

/-- A step that neither goes to sleep nor signals brings the steps down. -/
theorem thread_steps {i j : ι} {s s' : Shared ι} {t t' : Thread}
    (h : thread i j s t = some (s', t')) (hwait : t ≠ .signalWait .wait)
    (hsignal : t ≠ .signalDone .signal) : t'.steps < t.steps := by
  cases t with
  | printFirst | printLast => cases h; decide
  | workerReturned | mainReturned => cases h
  | signalDone p =>
      simp only [thread, Option.map_eq_some_iff, Prod.mk.injEq, Prod.exists] at h
      obtain ⟨s₁, k, hk, -, rfl⟩ := h
      cases p with
      | lock =>
          simp only [signalDone, Option.map_eq_some_iff, Prod.mk.injEq] at hk
          obtain ⟨l, -, -, rfl⟩ := hk
          decide
      | signal => exact absurd rfl hsignal
      | storeDone | unlock => cases hk; decide
  | signalWait p =>
      simp only [thread, Option.map_eq_some_iff, Prod.mk.injEq, Prod.exists] at h
      obtain ⟨s₁, k, hk, -, rfl⟩ := h
      cases p with
      | lock =>
          simp only [signalWait, Option.map_eq_some_iff, Prod.mk.injEq] at hk
          obtain ⟨l, -, -, rfl⟩ := hk
          decide
      | testDone =>
          simp only [signalWait, Option.some.injEq, Prod.mk.injEq] at hk
          obtain ⟨-, rfl⟩ := hk
          split <;> decide
      | wait => exact absurd rfl hwait
      | wake =>
          simp only [signalWait] at hk
          split at hk
          case isTrue => cases hk
          case isFalse =>
            simp only [Option.map_eq_some_iff, Prod.mk.injEq] at hk
            obtain ⟨l, -, -, rfl⟩ := hk
            decide
      | unlock => cases hk; decide

/-- After its signal a worker has only to unlock. -/
theorem thread_signal {i j : ι} {s s' : Shared ι} {t' : Thread}
    (h : thread i j s (.signalDone .signal) = some (s', t')) : t' = .signalDone .unlock := by
  simp only [thread, signalDone, Option.map_eq_some_iff, Prod.mk.injEq, Prod.exists] at h
  obtain ⟨s₁, k, ⟨q, -, -, rfl⟩, -, rfl⟩ := h
  rfl

omit [DecidableEq ι] in
theorem Inv.steps_eq (hI : Inv waits c) :
    c.steps + 3 * c.shared.s.cond.sleepers = total Thread.steps c.threads := by
  have := hI.sleepers_le_steps
  unfold State.steps
  omega

/-- The steps of the threads bring the steps that are left down, and whoever sleeps is not
forgotten without a signal. -/
theorem Inv.run_steps {i j : ι} (hI : Inv waits c) (h : c.step (thread i j) i = some c') :
    c'.steps < c.steps
      ∧ c.shared.s.cond.sleepers + total Thread.signalled c.threads
        ≤ c'.shared.s.cond.sleepers + total Thread.signalled c'.threads := by
  have hmover := Conf.step_mover h
  have hspec := thread_spec hmover
  have hbefore := hI.steps_eq
  have hafter := (hI.run h).steps_eq
  have hsteps := Conf.total_step Thread.steps h
  have hsignalled := Conf.total_step Thread.signalled h
  have hawake := hI.asleep i
  have hcond := hspec.cond
  have hcounts := hspec.signalled
  have hsleeps := hspec.sleeps
  generalize c.threads i = t at *
  generalize c'.shared.s.cond = q at *
  cases hcond with
  | keep hwait hsignal =>
      have hless := thread_steps hmover hwait hsignal
      have hsame := hcounts.resolve_right fun hat => hsignal hat.1
      omega
  | sleep =>
      have hup : c.shared.s.cond i = false := by
        rw [Bool.eq_false_iff]
        intro hasleep
        cases hawake hasleep
      have henter := WaitQueue.sleepers_enter hup
      rw [hsleeps rfl] at hsteps hsignalled
      simp only [Thread.steps, Thread.signalled] at hsteps hsignalled
      omega
  | wake hj =>
      have hleave := WaitQueue.sleepers_leave hj
      have hunlock := thread_signal hmover
      rw [hunlock] at hsteps hsignalled
      simp only [Thread.steps, Thread.signalled] at hsteps hsignalled
      omega
  | lost hnone =>
      have hunlock := thread_signal hmover
      rw [hunlock] at hsteps hsignalled
      simp only [Thread.steps, Thread.signalled] at hsteps hsignalled
      omega

/-! ## Runs -/

/-- A sleeper wakes up by itself. -/
def Act.isSpurious : Act ι → Bool
  | .spurious _ => true
  | .run _ _ => false

/-- **The measure**: only a sleeper that wakes up by itself takes the program back, by the
three steps in which it looks at `done` and goes to sleep again. -/
theorem Inv.next_steps {a : Act ι} (hI : Inv waits c) (h : next a c = some c') :
    c'.steps < c.steps + 4 * a.isSpurious.toNat := by
  have hI' := (inv_inductive waits).step hI h
  cases a with
  | run i j => exact (hI.run_steps h).1
  | spurious i =>
      simp only [next, Option.ite_none_right_eq_some, Option.some.injEq] at h
      obtain ⟨hasleep, rfl⟩ := h
      have hbefore := hI.steps_eq
      have hafter := hI'.steps_eq
      have hleave := WaitQueue.sleepers_leave hasleep
      simp only [Act.isSpurious, Bool.toNat_true] at *
      omega

omit [DecidableEq ι] in
theorem steps_start (waits : ι → Bool) :
    (start waits).steps ≤ 8 * workers waits + 4 * waiters waits := by
  refine (Nat.sub_le _ _).trans ?_
  rw [total, workers, waiters, Finset.mul_sum, Finset.mul_sum, ← Finset.sum_add_distrib]
  refine Finset.sum_le_sum fun i _ => ?_
  cases hi : waits i <;> simp [start, hi, Thread.steps]

/-- The lines that a thread has still to print. -/
def Thread.lines : Thread → List Line
  | .printFirst => [.first]
  | .signalWait _ | .printLast => [.last]
  | _ => []

/-- What a thread prints it has not to print any more. -/
theorem thread_lines {i j : ι} {s s' : Shared ι} {t t' : Thread} (l : Line)
    (h : thread i j s t = some (s', t')) :
    s'.printed.count l + t'.lines.count l = s.printed.count l + t.lines.count l := by
  cases t with
  | printFirst | printLast =>
      cases h
      simp [Thread.lines]
  | workerReturned | mainReturned => cases h
  | signalDone p =>
      simp only [thread, Option.map_eq_some_iff, Prod.mk.injEq, Prod.exists] at h
      obtain ⟨s₁, k, -, rfl, rfl⟩ := h
      cases k <;> rfl
  | signalWait p =>
      simp only [thread, Option.map_eq_some_iff, Prod.mk.injEq, Prod.exists] at h
      obtain ⟨s₁, k, -, rfl, rfl⟩ := h
      cases k <;> rfl

/-- Each of those who wait prints "last" once, and each worker "first". -/
def promised (waits : ι → Bool) : Line → Nat
  | .first => workers waits
  | .last => waiters waits

theorem printed_inductive (waits : ι → Bool) (l : Line) :
    (program waits).Inductive fun c =>
      c.shared.printed.count l + total (fun t => t.lines.count l) c.threads
        = promised waits l where
  init := by
    show 0 + _ = _
    rw [Nat.zero_add]
    cases l with
    | first =>
        refine Finset.sum_congr rfl fun i _ => ?_
        cases hi : waits i <;> simp [program, start, hi, Thread.lines]
    | last =>
        refine Finset.sum_congr rfl fun i _ => ?_
        cases hi : waits i <;> simp [program, start, hi, Thread.lines]
  step := by
    intro a c c' hcount h
    cases a with
    | run i j =>
        have h : c.step (thread i j) i = some c' := h
        exact (Conf.step_total (g := fun s => s.printed.count l) h
          (thread_lines l (Conf.step_mover h))).trans hcount
    | spurious i =>
        simp only [program, next, Option.ite_none_right_eq_some, Option.some.injEq] at h
        obtain ⟨-, rfl⟩ := h
        exact hcount

/-! ## Leaving somebody asleep -/

/-- Those who wait can all go to sleep before the first worker has moved. -/
theorem exists_all_asleep (waits : ι → Bool) :
    ∃ c, (program waits).Reachable c ∧ Inv waits c ∧ c.shared.s.cond.sleepers = waiters waits := by
  -- run those who wait, and nobody else, until none of them can move
  obtain ⟨ls, c, hrun, ⟨hI, hzero, hworkers⟩, hnone⟩ :=
    exists_exhausted (S := program waits)
      (I := fun c => Inv waits c ∧ c.shared.s.done = 0
        ∧ ∀ i, waits i = false → c.threads i = .printFirst)
      (p := fun a => ∃ i j, a = .run i j ∧ waits i = true) (μ := State.steps)
      (by
        rintro a c c' ⟨i, j, rfl, hi⟩ ⟨hI, hzero, hworkers⟩ h
        have h : c.step (thread i j) i = some c' := h
        refine ⟨⟨hI.run h, ?_, fun k hk => ?_⟩, (hI.run_steps h).1⟩
        · rcases (thread_spec (Conf.step_mover h)).done with hsame | ⟨hat, -⟩
          · exact hsame.trans hzero
          · have hrole := hI.roles i
            rw [hat, hi] at hrole
            cases hrole
        · have hki : k ≠ i := by
            rintro rfl
            rw [hi] at hk
            cases hk
          rw [Conf.step_threads_ne h hki]
          exact hworkers k hk)
      ⟨inv_start, rfl, fun i hi => by simp [start, hi]⟩
  refine ⟨c, ⟨ls, hrun⟩, hI, le_antisymm hI.sleepers_le (Finset.sum_le_sum fun i _ => ?_)⟩
  cases hi : waits i with
  | false => exact Nat.zero_le _
  | true =>
      have hunfinished : (c.threads i).isFinished = false := by
        have hok := hI.ok i
        have hrole := hI.roles i
        rw [hi] at hrole
        generalize c.threads i = t at hok hrole
        cases t with
        | mainReturned => rw [Thread.Ok, hzero] at hok; cases hok
        | workerReturned => cases hrole
        | _ => rfl
      have hasleep := hI.asleep_of_none (A := fun i => waits i = true)
        (fun i j hi => hnone (.run i j) ⟨i, j, rfl, hi⟩)
        (fun k hk => by
          -- a worker does not hold the mutex: it has not moved
          by_contra hout
          have hin := (hI.lock k).mpr hk
          rw [hworkers k (Bool.eq_false_iff.mpr hout)] at hin
          cases hin) hi hunfinished
      rw [hasleep]

/-- With more threads that wait than workers, somebody can be left asleep for good. -/
theorem exists_left_asleep (hlt : workers waits < waiters waits) :
    ∃ c, (program waits).Reachable c ∧ Stuck c ∧ ∃ i, (c.threads i).isFinished = false := by
  obtain ⟨c, hc, hI, hall⟩ := exists_all_asleep waits
  -- from there on everybody who can move does
  obtain ⟨ls, c', hrun, ⟨hI', hleft⟩, hnone⟩ :=
    exists_exhausted (S := program waits)
      (I := fun c => Inv waits c
        ∧ waiters waits ≤ c.shared.s.cond.sleepers + total Thread.signalled c.threads)
      (p := fun a => ∃ i j, a = .run i j) (μ := State.steps)
      (by
        rintro a c c' ⟨i, j, rfl⟩ ⟨hI, hleft⟩ h
        obtain ⟨hless, hkeep⟩ := hI.run_steps h
        exact ⟨⟨hI.run h, hleft.trans hkeep⟩, hless⟩)
      ⟨hI, by omega⟩
  have hstuck : Stuck c' := fun i j => hnone (.run i j) ⟨i, j, rfl⟩
  refine ⟨c', hc.exec hrun, hstuck, ?_⟩
  by_contra hall
  have hnobody : c'.shared.s.cond.sleepers = 0 := by
    rw [WaitQueue.sleepers_eq_zero]
    intro i
    rw [Bool.eq_false_iff]
    intro hasleep
    exact hall ⟨i, by rw [hI'.asleep i hasleep]; rfl⟩
  have := hI'.signalled_le
  omega

/-- **The synchronizer**, between any number of threads that signal and of threads that wait:
no thread prints "last" before some worker has printed "first", the length of a run is bounded
by how often sleepers wake up by themselves, and every run that nobody can continue has every
thread returned and every line printed exactly if no more threads wait than signal. -/
theorem signal_cv_iff (waits : ι → Bool) :
    (∀ ls c, (program waits).Reaches ls c → InOrder c.shared.printed
      ∧ ls.length ≤ 8 * workers waits + 4 * waiters waits
        + 4 * (program waits).count (fun a _ => a.isSpurious) ls)
      ∧ ((∀ c, (program waits).Reachable c → Stuck c → (∀ i, (c.threads i).isFinished = true)
          ∧ c.shared.printed.count .first = workers waits
          ∧ c.shared.printed.count .last = waiters waits)
        ↔ waiters waits ≤ workers waits) := by
  have hind := inv_inductive waits
  refine ⟨fun ls c hrun => ⟨(hind.reachable hrun.reachable).order, ?_⟩, fun h => ?_,
    fun hle c hc hstuck => ?_⟩
  · have hlen := hind.length_le_tally (p := fun a _ => a.isSpurious) Inv.next_steps hind.init hrun
    have := steps_start waits
    show _ ≤ _ + 4 * (program waits).tally (fun a _ => a.isSpurious) ls (start waits)
    exact (Nat.le_add_right _ _).trans (hlen.trans (Nat.add_le_add_right this _))
  · by_contra hlt
    obtain ⟨c, hc, hstuck, i, hi⟩ := exists_left_asleep (Nat.lt_of_not_le hlt)
    have hfinished := (h c hc hstuck).1 i
    rw [hi] at hfinished
    cases hfinished
  · have hfinished := (hind.reachable hc).finished_of_stuck hstuck hle
    have hcount : ∀ l, c.shared.printed.count l = promised waits l := by
      intro l
      have htotal : total (fun t => t.lines.count l) c.threads = 0 := by
        refine total_eq_zero fun i => ?_
        have := hfinished i
        generalize c.threads i = t at this
        cases t with
        | workerReturned | mainReturned => rfl
        | _ => cases this
      have := (printed_inductive waits l).reachable hc
      omega
    exact ⟨hfinished, hcount .first, hcount .last⟩

-- the program itself: one worker, and `main` that waits
example : waiters (id : Bool → Bool) ≤ workers (id : Bool → Bool) := by decide

end CAdvanced.SignalCv
