import CAdvanced.DeadlockGlobal.Model

/-!
# DeadlockGlobal — Gate

Why the workers cannot block each other although they take `m1` and `m2` in both orders. A
mutex is held by the worker whose place in the code says so (`Held`), and wherever a worker
holds `m1` or `m2` it holds `g` as well. So whoever holds `g` finds the other two free.
-/

namespace CAdvanced.DeadlockGlobal

open Interleave System

/-- What a worker holds at a point of its code. -/
def Pc.holds : Pc → Lock → Bool
  | .lockG, _ => false
  | .ifLockM1, l => l = .g
  | .ifLockM2, l => l = .g || l = .m1
  | .elseLockM2, l => l = .g
  | .elseLockM1, l => l = .g || l = .m2
  | .unlockM1, _ => true
  | .unlockM2, l => l = .g || l = .m2
  | .unlockG, l => l = .g
  | .returned, _ => false

/-- **The gate**: whoever holds a mutex holds `g`. -/
theorem Pc.holds_g {t : Pc} {l : Lock} (h : t.holds l = true) : t.holds .g = true := by
  cases t <;> first | rfl | cases h

/-- A worker that does not hold `g` is at one end of its code. -/
theorem Pc.ends_of_not_holds_g {t : Pc} (h : t.holds .g = false) : t = .lockG ∨ t = .returned := by
  cases t <;> first | exact .inl rfl | exact .inr rfl | cases h

/-! ## One statement -/

/-- A mutex is locked by a worker that does not hold it, and held behind the statement. -/
theorem worker_lock {arg : Int} {t t' : Pc} {l : Lock} (h : worker arg t = some (.lock l, t')) :
    t.holds l = false ∧ ∀ k, t'.holds k = if k = l then true else t.holds k := by
  cases t with
  | lockG =>
      cases h
      refine ⟨rfl, fun k => ?_⟩
      split <;> cases k <;> rfl
  | _ => cases h <;> exact ⟨rfl, fun k => by cases k <;> rfl⟩

/-- It is unlocked by a worker that holds it, and not held behind the statement. -/
theorem worker_unlock {arg : Int} {t t' : Pc} {l : Lock}
    (h : worker arg t = some (.unlock l, t')) :
    t.holds l = true ∧ ∀ k, t'.holds k = if k = l then false else t.holds k := by
  cases t <;> cases h <;> exact ⟨rfl, fun k => by cases k <;> rfl⟩

section Threads
variable {ι : Type} {arg : ι → Int}

/-- **One statement** moves each mutex as the worker moves in and out of the part of its
code where it holds it. -/
theorem code_moves {a : Int} {j : ι} {s s' : Shared ι} {t t' : Pc}
    (h : code a j s t = some (s', t')) (l : Lock) :
    Mutex.Moves j (s l) (t.holds l) (s' l) (t'.holds l) := by
  obtain ⟨⟨op, u⟩, hworker, hperform⟩ := Option.bind_eq_some_iff.mp h
  obtain ⟨s'', hs, heq⟩ := Option.map_eq_some_iff.mp hperform
  cases heq
  cases op with
  | lock k =>
      obtain ⟨hnot, hholds⟩ := worker_lock hworker
      obtain ⟨m, hm, rfl⟩ := Option.map_eq_some_iff.mp hs
      obtain ⟨hfree, rfl⟩ := Mutex.lock_eq_some.mp hm
      rw [hholds]
      by_cases hl : l = k
      · subst hl
        rw [Function.update_self, hfree, hnot, if_pos rfl]
        exact .lock
      · rw [Function.update_of_ne hl, if_neg hl]
        exact .keep
  | unlock k =>
      obtain ⟨hholding, hholds⟩ := worker_unlock hworker
      cases hs
      rw [hholds]
      by_cases hl : l = k
      · subst hl
        rw [Function.update_self, hholding, if_pos rfl]
        exact .unlock
      · rw [Function.update_of_ne hl, if_neg hl]
        exact .keep

/-! ## In every run -/

/-- **The holder of a mutex** is the worker whose place in the code says so. -/
def Held (c : State ι) : Prop := ∀ l j, (c.threads j).holds l = true ↔ c.shared l = some j

variable {c : State ι}

/-- Whoever holds `m1` or `m2` holds the gate. -/
theorem Held.gate (hc : Held c) {l : Lock} {j : ι} (h : c.shared l = some j) :
    c.shared .g = some j :=
  (hc .g j).mp (Pc.holds_g ((hc l j).mpr h))

/-- A worker at the end of its code has no statement left. -/
theorem worker_eq_none {a : Int} {t : Pc} (h : worker a t = none) : t = .returned := by
  cases t with
  | returned => rfl
  | _ => cases h

section Code
variable {a : Int} {j : ι} {s : Shared ι} {t t' : Pc} {l : Lock}

/-- A mutex that is free can be locked. -/
theorem code_lock (h : worker a t = some (.lock l, t')) (hfree : s l = none) :
    (code a j s t).isSome := by
  simp [code, h, perform, hfree, Mutex.lock]

/-- An unlock is always possible. -/
theorem code_unlock (h : worker a t = some (.unlock l, t')) : (code a j s t).isSome := by
  simp [code, h, perform]

end Code

/-- **The holder of the gate can go on**: what it has still to lock is free. -/
theorem Held.holder_moves (hc : Held c) {j : ι} (h : c.shared .g = some j) :
    (code (arg j) j c.shared (c.threads j)).isSome := by
  rcases hworker : worker (arg j) (c.threads j) with - | ⟨op, t⟩
  · have hgate := (hc .g j).mpr h
    rw [worker_eq_none hworker] at hgate
    cases hgate
  · cases op with
    | lock l =>
        apply code_lock hworker
        rcases hl : c.shared l with - | k
        · rfl
        · -- the holder of that mutex holds the gate, so it is the worker itself
          have hk : k = j := Option.some.inj ((hc.gate hl).symm.trans h)
          have hholds := (hc l j).mpr (hk ▸ hl)
          rw [(worker_lock hworker).1] at hholds
          cases hholds
    | unlock l => exact code_unlock hworker

variable [DecidableEq ι]

theorem held_inductive : (workers arg).Inductive Held where
  init := by
    intro l j
    constructor <;> intro h <;> cases h
  step := by
    intro i c c' hc h l
    have hmoves := code_moves (Conf.step_mover h) l
    have hothers : ∀ j, j ≠ i → (c'.threads j).holds l = (c.threads j).holds l := by
      intro j hj
      rw [Conf.step_threads_ne h hj]
    exact hmoves.holder (hc l) rfl rfl hothers

/-- **Somebody can go on** as long as somebody has not finished: the holder of the gate, or
anyone at its first statement if the gate is free. -/
theorem Held.canMove {c : State ι} (hc : Held c) {j : ι} (hj : c.threads j ≠ .returned) :
    (workers arg).CanMove c := by
  rcases hgate : c.shared .g with - | k
  · have hnot : (c.threads j).holds .g = false := by
      rw [Bool.eq_false_iff]
      intro hholds
      have hheld := (hc .g j).mp hholds
      rw [hgate] at hheld
      cases hheld
    have hfirst := (Pc.ends_of_not_holds_g hnot).resolve_right hj
    have hsome : (code (arg j) j c.shared (c.threads j)).isSome := by
      rw [hfirst]
      exact code_lock rfl hgate
    exact ⟨j, Conf.step_isSome hsome⟩
  · exact ⟨k, Conf.step_isSome (hc.holder_moves hgate)⟩

/-- **The gate lock works**, for any number of workers with any arguments: as long as one of
them has not finished, somebody can go on; what is unlocked is unlocked by its holder; and
`m1` and `m2` are held by the holder of `g` only. -/
theorem deadlock_global_safe {c : State ι} (h : (workers arg).Reachable c) :
    ((∃ j, c.threads j ≠ .returned) → (workers arg).CanMove c)
      ∧ (∀ j l t, worker (arg j) (c.threads j) = some (.unlock l, t) → c.shared l = some j)
      ∧ ∀ j, c.shared .m1 = some j ∨ c.shared .m2 = some j → c.shared .g = some j := by
  have hc : Held c := held_inductive.reachable h
  refine ⟨?_, fun j l t hunlock => ?_, fun j hj => ?_⟩
  · intro hleft
    obtain ⟨j, hj⟩ := hleft
    exact hc.canMove hj
  · exact (hc l j).mp (worker_unlock hunlock).1
  · rcases hj with hj | hj
    · exact hc.gate hj
    · exact hc.gate hj

/-- The two workers of `main`, when the first one has taken `m1` and the second one waits for
the gate. -/
theorem deadlock_global_safe_two :
    ∃ c : State (Fin 2), (workers fun i : Fin 2 => i.val).Reachable c
      ∧ c.threads 0 = .ifLockM2 ∧ c.threads 1 = .lockG
      ∧ (workers fun i : Fin 2 => i.val).CanMove c := by
  obtain ⟨c, hrun, hc⟩ := Option.any_eq_true _ _ |>.mp
    (show ((workers fun i : Fin 2 => i.val).exec [0, 0] (start (Fin 2))).any
        (fun c => c.threads 0 = .ifLockM2 ∧ c.threads 1 = .lockG) = true by decide +kernel)
  obtain ⟨hfirst, hsecond⟩ := of_decide_eq_true hc
  have hsafe := deadlock_global_safe ⟨_, hrun⟩
  exact ⟨c, ⟨_, hrun⟩, hfirst, hsecond, hsafe.1 ⟨0, by rw [hfirst]; decide⟩⟩

end Threads
end CAdvanced.DeadlockGlobal
