import CAdvanced.Interleave.LockProgram

/-!
# Deadlock — Embrace

`main-deadlock.c`: the workers of `main-deadlock-global.c` without the gate. A worker
takes `m1` and then `m2`, or the other way round, as its argument says. Either order alone
is safe; as soon as there are workers of both kinds, some run ends in the deadly embrace of
two of them, and there is no other way in which a run can fail.
-/

namespace CAdvanced.Deadlock

open Interleave System

/-! ## Model -/

/-- The two mutexes. -/
inductive Lock where
  | m1
  | m2
  deriving DecidableEq, Repr

/-- Where `worker` stands: in one of the two branches, or behind them. -/
inductive Pc where
  | ifLockM1
  | ifSleep
  | ifLockM2
  | elseLockM2
  | elseLockM1
  | unlockM1
  | unlockM2
  | returned
  deriving DecidableEq, Repr

/-- `worker(arg)`: the branch it enters. -/
def entry (arg : Int) : Pc := if arg = 0 then .ifLockM1 else .elseLockM2

/-- `worker`: the statement at a point, and the point behind it. -/
def worker : Pc → Option (LockOp Lock × Pc)
  | .ifLockM1 => some (.lock .m1, .ifSleep)
  | .ifSleep => some (.skip, .ifLockM2)
  | .ifLockM2 => some (.lock .m2, .unlockM1)
  | .elseLockM2 => some (.lock .m2, .elseLockM1)
  | .elseLockM1 => some (.lock .m1, .unlockM1)
  | .unlockM1 => some (.unlock .m1, .unlockM2)
  | .unlockM2 => some (.unlock .m2, .returned)
  | .returned => none

/-- The mutexes and the workers. -/
abbrev State (ι : Type) := Conf ι (Lock → Mutex ι) Pc

/-- The workers, each with its argument. -/
def workers {ι : Type} [DecidableEq ι] (arg : ι → Int) : System (State ι) ι :=
  lockThreads (fun _ => worker) fun i => entry (arg i)

/-! ## What the workers hold -/

/-- What a worker holds at a point of its code. -/
def Pc.holds : Pc → Lock → Bool
  | .ifSleep, .m1 | .ifLockM2, .m1 => true
  | .elseLockM1, .m2 => true
  | .unlockM1, _ => true
  | .unlockM2, .m2 => true
  | _, _ => false

/-- The points that a worker with the argument `arg` can come to. -/
def Pc.OfArg (arg : Int) : Pc → Prop
  | .ifLockM1 | .ifSleep | .ifLockM2 => arg = 0
  | .elseLockM2 | .elseLockM1 => arg ≠ 0
  | _ => True

variable {ι : Type} {arg : ι → Int}

theorem worker_disciplined :
    Disciplined (fun _ => worker) (fun i => entry (arg i)) (fun i => Pc.OfArg (arg i))
      Pc.holds where
  start := by
    intro i
    by_cases hi : arg i = 0
    · simp [entry, hi, Pc.OfArg, Pc.holds]
    · simp [entry, hi, Pc.OfArg, Pc.holds]
  keeps := by
    intro i p op p' hp h
    cases p <;> cases h <;> first | exact hp | exact trivial
  lock := by
    intro i p l p' hp h
    cases p <;> cases h
    all_goals exact ⟨rfl, fun k => by cases k <;> rfl⟩
  unlock := by
    intro i p l p' hp h
    cases p <;> cases h
    all_goals exact ⟨rfl, fun k => by cases k <;> rfl⟩
  skip := by
    intro i p p' hp h k
    cases p <;> cases h
    cases k <;> rfl
  ends := by
    intro i p hp h l
    cases p <;> cases h
    rfl

/-! ## Stuck states -/

variable [DecidableEq ι]

/-- **The embrace**: `i` holds `m1` and waits for `m2`, which `j` holds, who waits for
`m1`. -/
structure Embrace (arg : ι → Int) (c : State ι) (i j : ι) : Prop where
  first : arg i = 0 ∧ c.threads i = .ifLockM2 ∧ c.shared .m1 = some i
  second : arg j ≠ 0 ∧ c.threads j = .elseLockM1 ∧ c.shared .m2 = some j

/-- What is left of a worker is at most five statements. -/
def Pc.steps : Pc → Nat
  | .ifLockM1 => 5
  | .ifSleep => 4
  | .elseLockM2 => 4
  | .ifLockM2 | .elseLockM1 => 3
  | .unlockM1 => 2
  | .unlockM2 => 1
  | .returned => 0

omit [DecidableEq ι] in
theorem lockStep_steps {i : ι} {s s' : Lock → Mutex ι} {p p' : Pc}
    (h : lockStep worker i s p = some (s', p')) : p'.steps < p.steps := by
  obtain ⟨op, hcode, -⟩ := lockStep_eq_some h
  cases p <;> cases hcode <;> decide

/-- A thread that is not done is at a lock, at an unlock or asleep. -/
theorem worker_eq_none {p : Pc} (h : worker p = none) : p = .returned := by
  cases p with
  | returned => rfl
  | _ => cases h

variable {c : State ι}

/-- Who waits while it holds something is in the middle of a branch. -/
theorem middle_of_waits {p p' : Pc} {l k : Lock} (h : worker p = some (.lock l, p'))
    (hk : p.holds k = true) : (p = .ifLockM2 ∧ k = .m1) ∨ (p = .elseLockM1 ∧ k = .m2) := by
  cases p <;> cases h <;> cases k <;> simp_all [Pc.holds]

/-- **A stuck state is an embrace.** -/
theorem embrace_of_stuck (h : (workers arg).Reachable c) (hstuck : ¬ (workers arg).CanMove c)
    {i : ι} (hi : c.threads i ≠ .returned) : ∃ i j, Embrace arg c i j := by
  have hD := @worker_disciplined ι arg
  have hof := (hD.invariant.reachable h).1
  have hwaits : ∀ {k}, worker (c.threads k) ≠ none → ∃ l p j,
      worker (c.threads k) = some (.lock l, p) ∧ c.shared l = some j
        ∧ worker (c.threads j) ≠ none := fun hk => hD.stuck h hstuck hk
  -- the holder of what a worker waits for waits in the middle of a branch
  have hmiddle : ∀ {l j}, c.shared l = some j → worker (c.threads j) ≠ none →
      (c.threads j = .ifLockM2 ∧ l = .m1) ∨ (c.threads j = .elseLockM1 ∧ l = .m2) := by
    intro l j hj hnext
    obtain ⟨l', p, -, hcode, -⟩ := hwaits hnext
    exact middle_of_waits hcode ((hD.held h l j).mpr hj)
  obtain ⟨l, -, j, -, hj, hnext⟩ := hwaits fun hnone => hi (worker_eq_none hnone)
  obtain ⟨l', p, k, hcode, hk, hnext'⟩ := hwaits hnext
  have hofj := hof j
  have hofk := hof k
  rcases hmiddle hj hnext with ⟨hat, rfl⟩ | ⟨hat, rfl⟩
  · rw [hat] at hcode hofj
    cases hcode
    obtain ⟨hat', -⟩ := (hmiddle hk hnext').resolve_left fun h => by cases h.2
    rw [hat'] at hofk
    exact ⟨j, k, ⟨hofj, hat, hj⟩, ⟨hofk, hat', hk⟩⟩
  · rw [hat] at hcode hofj
    cases hcode
    obtain ⟨hat', -⟩ := (hmiddle hk hnext').resolve_right fun h => by cases h.2
    rw [hat'] at hofk
    exact ⟨k, j, ⟨hofk, hat', hk⟩, ⟨hofj, hat, hj⟩⟩

/-- Nobody comes out of an embrace, and nobody else comes past it. -/
theorem Embrace.stuck {i j : ι} (hE : Embrace arg c i j) (h : (workers arg).Reachable c) :
    ¬ (workers arg).CanMove c := by
  rintro ⟨k, c', hstep⟩
  obtain ⟨-, hati, hm1⟩ := hE.first
  obtain ⟨-, hatj, hm2⟩ := hE.second
  have hheld := worker_disciplined.held h
  -- everybody else holds nothing
  have hnone : k = i ∨ k = j ∨ ∀ l, (c.threads k).holds l = false := by
    by_cases hki : k = i
    · exact .inl hki
    · by_cases hkj : k = j
      · exact .inr (.inl hkj)
      · refine .inr (.inr fun l => ?_)
        rw [Bool.eq_false_iff]
        intro hk
        have hholder := (hheld l k).mp hk
        cases l with
        | m1 => exact hki (Option.some.inj (hholder.symm.trans hm1))
        | m2 => exact hkj (Option.some.inj (hholder.symm.trans hm2))
  obtain ⟨op, hcode, hop⟩ := lockStep_eq_some (Conf.step_mover hstep)
  generalize c'.threads k = p' at hcode
  rcases hnone with rfl | rfl | hfree
  · rw [hati] at hcode
    cases hcode
    simp [LockOp.perform, hm2, Mutex.lock] at hop
  · rw [hatj] at hcode
    cases hcode
    simp [LockOp.perform, hm1, Mutex.lock] at hop
  · have hfree1 := hfree .m1
    have hfree2 := hfree .m2
    generalize c.threads k = p at hcode hfree1 hfree2
    cases p with
    | ifLockM1 =>
        cases hcode
        simp [LockOp.perform, hm1, Mutex.lock] at hop
    | elseLockM2 =>
        cases hcode
        simp [LockOp.perform, hm2, Mutex.lock] at hop
    | ifSleep | ifLockM2 | unlockM1 => cases hfree1
    | elseLockM1 | unlockM2 => cases hfree2
    | returned => cases hcode

/-- A worker of each kind, and both take their first mutex before either takes its
second one. -/
theorem exists_embrace {i j : ι} (hi : arg i = 0) (hj : arg j ≠ 0) :
    ∃ c, (workers arg).Reachable c ∧ Embrace arg c i j := by
  have hij : i ≠ j := by
    rintro rfl
    exact hj hi
  let c₀ : State ι := (workers arg).init
  let c₁ : State ι := ⟨Function.update c₀.shared .m1 (some i), Function.update c₀.threads i .ifSleep⟩
  let c₂ : State ι := ⟨c₁.shared, Function.update c₁.threads i .ifLockM2⟩
  let c₃ : State ι :=
    ⟨Function.update c₂.shared .m2 (some j), Function.update c₂.threads j .elseLockM1⟩
  have h₀ : c₀.threads i = .ifLockM1 := if_pos hi
  have h₁ : c₁.threads i = .ifSleep := Function.update_self ..
  have h₂ : c₂.threads j = .elseLockM2 := by
    simp only [c₂, c₁, Function.update_of_ne hij.symm]
    exact if_neg hj
  have hstep₁ : (workers arg).next i c₀ = some c₁ :=
    Conf.step_eq_some.mpr ⟨_, _, by rw [h₀]; rfl, rfl⟩
  have hstep₂ : (workers arg).next i c₁ = some c₂ :=
    Conf.step_eq_some.mpr ⟨_, _, by rw [h₁]; rfl, rfl⟩
  have hstep₃ : (workers arg).next j c₂ = some c₃ :=
    Conf.step_eq_some.mpr ⟨_, _, by rw [h₂]; rfl, rfl⟩
  refine ⟨c₃, ⟨[i, i, j], ?_⟩, ⟨hi, ?_, ?_⟩, ⟨hj, ?_, ?_⟩⟩
  · exact exec_cons_eq_some.mpr ⟨c₁, hstep₁, exec_cons_eq_some.mpr ⟨c₂, hstep₂,
      exec_singleton.trans hstep₃⟩⟩
  · simp [c₃, c₂, Function.update_of_ne hij]
  · simp [c₃, c₂, c₁]
  · simp [c₃]
  · simp [c₃]

/-- **When `main-deadlock.c` deadlocks**: for any number of workers with any arguments, every
run ends, after at most five statements a worker, and either all workers have returned and
both mutexes are free, or two workers are in the embrace, and then nobody can ever move
again. Some run ends in it if and only if there is a worker with the argument 0 and one
with another argument, as in `main`. -/
theorem deadlock_iff [Fintype ι] (arg : ι → Int) :
    ((workers arg).EndsWithin (5 * Fintype.card ι) fun _ c =>
      ((∀ i, c.threads i = .returned) ∧ ∀ l, c.shared l = none) ∨ ∃ i j, Embrace arg c i j)
    ∧ (∀ {c i j}, (workers arg).Reachable c → Embrace arg c i j → ¬ (workers arg).CanMove c)
    ∧ ((∃ c i j, (workers arg).Reachable c ∧ Embrace arg c i j)
      ↔ (∃ i, arg i = 0) ∧ ∃ j, arg j ≠ 0) := by
  refine ⟨⟨fun hrun => ?length, fun {ls c} hrun hstuck => ?ended⟩,
    fun hrun hE => hE.stuck hrun, ?both⟩
  case length =>
    have hle := threads_length_le (w := Pc.steps) (fun _ _ => rfl) inductive_true
      (fun _ hstep => lockStep_steps hstep) hrun
    have hstart : total Pc.steps (workers arg).init.threads ≤ 5 * Fintype.card ι := by
      calc total Pc.steps (workers arg).init.threads ≤ total (fun _ => 5) (workers arg).init.threads :=
            total_le_total fun i => by cases (workers arg).init.threads i <;> decide
        _ = 5 * Fintype.card ι := by simp [total, Nat.mul_comm]
    omega
  case ended =>
    by_cases hall : ∀ i, c.threads i = .returned
    · refine .inl ⟨hall, fun l => ?_⟩
      rw [Option.eq_none_iff_forall_ne_some]
      intro i hi
      have hholds := (worker_disciplined.held hrun.reachable l i).mpr hi
      rw [hall] at hholds
      cases hholds
    · obtain ⟨i, hi⟩ := not_forall.mp hall
      exact .inr (embrace_of_stuck hrun.reachable hstuck hi)
  case both =>
    constructor
    · rintro ⟨c, i, j, -, hE⟩
      exact ⟨⟨i, hE.first.1⟩, ⟨j, hE.second.1⟩⟩
    · rintro ⟨⟨i, hi⟩, ⟨j, hj⟩⟩
      obtain ⟨c, hrun, hE⟩ := exists_embrace hi hj
      exact ⟨c, i, j, hrun, hE⟩

end CAdvanced.Deadlock
