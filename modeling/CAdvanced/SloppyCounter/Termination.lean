import CAdvanced.SloppyCounter.Ids
import CAdvanced.Interleave.Termination

/-!
# SloppyCounter — Termination

The program of `sloppy-counter.c` ends under every schedule, whatever ids its workers have
read. Only how often a slot is handed over to `value` depends on the schedule, and each of
these times costs six steps and moves `value` by exactly `threshold`: so the number that the
program prints can be read off the length of its run, up to the width of an `int`.
-/

namespace CAdvanced.SloppyCounter

open Interleave System CInt

/-! ## The steps that are left -/

/-- The steps that `increment` has left, and two; the six in which it hands its slot over
come for free. -/
def Increment.steps : Increment → Nat
  | .lockLocal => 7
  | .loadLocal => 6
  | .storeLocal _ => 5
  | .testLocal => 4
  | .lockGlobal => 3
  | .loadValue => 2
  | .addLocal _ => 1
  | .storeValue _ => 0
  | .unlockGlobal => 5
  | .storeZero => 4
  | .unlockLocal => 3

/-- The steps that `get` has left. -/
def Get.steps : Get → Nat
  | .lockGlobal => 3
  | .loadValue => 2
  | .unlockGlobal _ => 1

variable {n : Nat}

/-- The steps that a worker has left, and one; all of them, before it is created. -/
def Wrapper.steps (MAX : Nat) (w : Wrapper n) : Nat :=
  match w.pc with
  | .notCreated => 8 * MAX + 2
  | .loop => 8 * (MAX - w.i) + 2
  | .loadCount => 8 * (MAX - (w.i + 1)) + 9
  | .loadId => 8 * (MAX - (w.i + 1)) + 8
  | .increment _ p => 8 * (MAX - (w.i + 1)) + p.steps
  | .finished => 1

/-- The steps that `main` has left. -/
def Main.steps : Main n → Nat
  | .forCreate i => 4 * (n - i) + 2 * n + 5
  | .storeId i => 4 * (n - (i + 1)) + 2 * n + 8
  | .storeCount i => 4 * (n - (i + 1)) + 2 * n + 7
  | .create i => 4 * (n - (i + 1)) + 2 * n + 6
  | .forJoin i => 2 * (n - i) + 4
  | .join i => 2 * (n - (i + 1)) + 5
  | .get p => p.steps
  | .printed _ => 0

/-- The steps that the program has left. -/
def State.steps (MAX : Nat) (s : State n) : Nat := s.main.steps + total (Wrapper.steps MAX) s.workers

/-- One step of `increment`: it is one of those that are left, or `value` is stored. -/
theorem increment_clock {ι : Type} {i : ι} {threadId : Fin n} {c c' : Counter ι n} {p : Increment}
    {q : Ctl Increment} {t : Int} (h : increment i threadId c p = some (c', q))
    (hfull : ∀ r, p = .storeValue r → c.locals threadId = t) :
    ∃ d : Nat, q.resume Increment.steps 2 + 1 = p.steps + 6 * d
      ∧ p.hands (c.locals threadId) = t * d := by
  cases p with
  | lockLocal | lockGlobal =>
      simp only [increment, Option.map_eq_some_iff, Prod.mk.injEq] at h
      obtain ⟨l, -, rfl, rfl⟩ := h
      exact ⟨0, rfl, by simp⟩
  | testLocal =>
      simp only [increment, Option.some.injEq, Prod.mk.injEq] at h
      obtain ⟨rfl, rfl⟩ := h
      refine ⟨0, ?_, by simp⟩
      split <;> rfl
  | storeValue r =>
      cases h
      exact ⟨1, rfl, by simpa using hfull r rfl⟩
  | loadLocal | storeLocal r | loadValue | addLocal v | unlockGlobal | storeZero | unlockLocal =>
      cases h
      exact ⟨0, rfl, by simp⟩

/-- One step of a worker. -/
theorem incrementWrapper_clock {MAX : Nat} {i : Fin n} {c c' : Counter (Tid n) n}
    {tw : ThreadWrapper n} {w w' : Wrapper n} {t : Int}
    (h : incrementWrapper MAX i c tw w = some (c', w')) (hcounts : w.Counts MAX)
    (hfull : ∀ threadId r, w.pc = .increment threadId (.storeValue r) → c.locals threadId = t) :
    ∃ d : Nat, w'.steps MAX + 1 = w.steps MAX + 6 * d ∧ w.asWorker.hands c = t * d := by
  obtain ⟨pc, k⟩ := w
  cases pc with
  | notCreated | finished => cases h
  | loop =>
      simp only [incrementWrapper, Option.some.injEq, Prod.mk.injEq] at h
      obtain ⟨rfl, rfl⟩ := h
      simp only [Wrapper.Counts] at hcounts
      refine ⟨0, ?_, by simp⟩
      split
      case isTrue => simp only [Wrapper.steps]; omega
      case isFalse => simp only [Wrapper.steps]; omega
  | loadCount | loadId =>
      simp only [incrementWrapper, Option.map_eq_some_iff, Prod.mk.injEq] at h
      obtain ⟨_, -, rfl, rfl⟩ := h
      exact ⟨0, rfl, by simp⟩
  | increment threadId p =>
      simp only [incrementWrapper, Option.map_eq_some_iff, Prod.mk.injEq] at h
      obtain ⟨⟨c₁, q⟩, hq, rfl, rfl⟩ := h
      obtain ⟨d, hsteps, hhands⟩ := increment_clock hq fun r hr => hfull threadId r (by rw [hr])
      refine ⟨d, ?_, hhands⟩
      cases q with
      | goto p' =>
          simp only [Ctl.resume_goto, Wrapper.steps] at hsteps ⊢
          omega
      | ret =>
          simp only [Ctl.resume_ret, Wrapper.steps] at hsteps ⊢
          omega

/-- One step of `main`; the worker that it creates was not there before. -/
theorem mainStep_clock {MAX : Nat} {s s' : State n} (hC : Control MAX s)
    (h : mainStep s s.main = some s') :
    s'.steps MAX + 1 = s.steps MAX := by
  obtain ⟨count, tw, pc, workers⟩ := s
  have hle := hC.created_le
  have hjoined := hC.joined_le
  cases pc with
  | forCreate i | forJoin i =>
      cases h
      by_cases hi : i < n
      · simp only [dif_pos hi, State.steps, Main.steps]
        omega
      · simp only [dif_neg hi, State.steps, Main.steps, Get.steps]
        omega
  | storeId i | storeCount i =>
      cases h
      simp only [State.steps, Main.steps]
      omega
  | create i =>
      cases h
      have hnew : (workers i).pc = .notCreated := (hC.created i).mpr (Nat.le_refl _)
      have hsum := total_update (Wrapper.steps MAX) workers i ⟨.loop, 0⟩
      have hold : (workers i).steps MAX = 8 * MAX + 2 := by rw [Wrapper.steps, hnew]
      rw [hold, show Wrapper.steps MAX (⟨.loop, 0⟩ : Wrapper n) = 8 * MAX + 2 from rfl] at hsum
      simp only [State.steps, Main.steps]
      omega
  | join i =>
      simp only [mainStep, Option.ite_none_right_eq_some, Option.some.injEq] at h
      obtain ⟨-, rfl⟩ := h
      have hi := i.isLt
      simp only [State.steps, Main.steps]
      omega
  | get p =>
      simp only [mainStep, Option.map_eq_some_iff] at h
      obtain ⟨⟨c, q⟩, hq, rfl⟩ := h
      cases p with
      | lockGlobal =>
          simp only [get, Option.map_eq_some_iff, Prod.mk.injEq] at hq
          obtain ⟨g, -, rfl, rfl⟩ := hq
          simp only [State.steps, Main.steps, Get.steps]
          omega
      | loadValue | unlockGlobal rc =>
          simp only [get, Option.some.injEq, Prod.mk.injEq] at hq
          obtain ⟨rfl, rfl⟩ := hq
          simp only [State.steps, Main.steps, Get.steps]
          omega
  | printed rc => cases h

/-- **One step of the program**: it is one of those that are left, or a slot is handed over. -/
theorem Books.clock {MAX : Nat} {t : Int} (ht : IsThreshold t) {s s' : State n}
    (hB : Books MAX t s) {l : Tid n} (h : next MAX l s = some s') :
    ∃ d : Nat, s'.steps MAX + 1 = s.steps MAX + 6 * d ∧ collected s' = collected s + t * d := by
  have hcollected := (hB.collected_step ht h).1
  cases l with
  | main =>
      rw [hands_of_outside (main_outside s)] at hcollected
      exact ⟨0, mainStep_clock hB.control h, by simpa using hcollected⟩
  | worker i =>
      simp only [next, Option.map_eq_some_iff] at h
      obtain ⟨⟨c, w⟩, hstep, rfl⟩ := h
      obtain ⟨d, hsteps, hhands⟩ := incrementWrapper_clock hstep (hB.control.counts i)
        (t := t) (fun threadId r hpc => by
          -- the slot that is about to be handed over is full
          have hthread : (calls s).threads (.worker i) = ⟨.increment threadId (.storeValue r), []⟩ := by
            show (s.workers i).asWorker = _
            rw [Wrapper.asWorker, hpc]
          have hpoint : point (calls s) threadId = some (.storeValue r) := by
            have hlock := (hB.inv.slot threadId (.worker i)).mp (by rw [hthread]; simp)
            rw [point, hlock, Option.bind_some, hthread]
            simp
          have hbound := hB.inv.bound threadId
          rw [hpoint] at hbound
          exact hbound)
      have hsum := total_update (Wrapper.steps MAX) s.workers i w
      have hmover : hands (.worker i) (calls s) = t * d := hhands
      rw [hmover] at hcollected
      refine ⟨d, ?_, hcollected⟩
      simp only [State.steps]
      omega

/-! ## Who can move -/

/-- Before `main` creates a worker it has assigned `tw.count`. -/
def Assigned (s : State n) : Prop :=
  match s.main with
  | .forCreate i => 0 < i → s.tw.count ≠ none
  | .storeId i | .storeCount i => 0 < i.val → s.tw.count ≠ none
  | .create _ => s.tw.count ≠ none
  | _ => 0 < n → s.tw.count ≠ none

theorem assigned_inductive (n MAX : Nat) (t : Int) : (main n MAX t).Inductive Assigned where
  init := fun h => absurd h (Nat.lt_irrefl 0)
  step := by
    intro l s s' hA h
    cases l with
    | worker i =>
        simp only [main, next, Option.map_eq_some_iff] at h
        obtain ⟨⟨c, w⟩, -, rfl⟩ := h
        exact hA
    | main =>
        obtain ⟨count, tw, pc, workers⟩ := s
        cases pc with
        | forCreate i =>
            cases h
            by_cases hi : i < n
            · simp only [dif_pos hi]
              exact hA
            · simp only [dif_neg hi]
              exact fun hn => hA (Nat.lt_of_lt_of_le hn (Nat.not_lt.mp hi))
        | storeId i => cases h; exact hA
        | storeCount i => cases h; exact Option.some_ne_none _
        | create i => cases h; exact fun _ => hA
        | forJoin i =>
            cases h
            by_cases hi : i < n
            · simp only [dif_pos hi]
              exact hA
            · simp only [dif_neg hi]
              exact hA
        | join i =>
            simp only [main, next, mainStep, Option.ite_none_right_eq_some, Option.some.injEq] at h
            obtain ⟨-, rfl⟩ := h
            exact hA
        | get p =>
            simp only [main, next, mainStep, Option.map_eq_some_iff] at h
            obtain ⟨⟨c, q⟩, -, rfl⟩ := h
            cases q <;> exact hA
        | printed rc => cases h

/-- What a worker reads has been assigned by then. -/
theorem assigned_of_created {MAX : Nat} {s : State n} (hC : Control MAX s) (hA : Assigned s)
    {i : Fin n} (hi : (s.workers i).pc ≠ .notCreated) : s.tw.count ≠ none ∧ s.tw.id ≠ none := by
  have hcreated : i.val < s.main.created := by
    by_contra hnot
    exact hi ((hC.created i).mpr (Nat.not_lt.mp hnot))
  have hn : 0 < n := Nat.lt_of_le_of_lt (Nat.zero_le _) i.isLt
  constructor
  · have hpos : 0 < s.main.created := by omega
    unfold Assigned at hA
    cases hm : s.main with
    | forCreate k | storeId k | storeCount k =>
        rw [hm] at hA hpos
        exact hA hpos
    | create k =>
        rw [hm] at hA
        exact hA
    | _ =>
        rw [hm] at hA
        exact hA hn
  · have hstores := s.main.created_le_idStores
    have hle := hC.idStores_le
    rw [hC.assigned ⟨s.main.idStores - 1, by omega⟩ (by simp only; omega)]
    exact Option.some_ne_none _

/-- A step of `increment` can be taken unless it waits for a lock. -/
theorem increment_isSome {ι : Type} (i : ι) (threadId : Fin n) (c : Counter ι n) {p : Increment}
    (hslot : p = .lockLocal → c.locallock threadId = none)
    (hglobal : p = .lockGlobal → c.globallock = none) :
    (increment i threadId c p).isSome := by
  cases p with
  | lockLocal => simp [increment, hslot rfl, Mutex.lock]
  | lockGlobal => simp [increment, hglobal rfl, Mutex.lock]
  | _ => rfl

section Progress
variable {MAX : Nat} {t : Int} {s : State n}

theorem canMove_of_worker {i : Fin n}
    (h : (incrementWrapper MAX i s.count s.tw (s.workers i)).isSome) :
    (main n MAX t).CanMove s := by
  obtain ⟨r, hr⟩ := Option.isSome_iff_exists.mp h
  exact ⟨.worker i, _, by simp only [main, next, hr, Option.map_some]; rfl⟩

/-- The holder of `globallock` can go on. -/
theorem Books.global_moves (hB : Books MAX t s) {j : Tid n} (h : s.count.globallock = some j) :
    (main n MAX t).CanMove s := by
  have hin := (hB.inv.global j).mpr h
  cases j with
  | main =>
      have hin : s.main.asWorker.inGlobal = true := hin
      cases hm : s.main with
      | get p =>
          rw [hm] at hin
          have hmove : (mainStep s s.main).isSome := by
            rw [hm]
            cases p with
            | lockGlobal => cases hin
            | _ => rfl
          obtain ⟨s', hs'⟩ := Option.isSome_iff_exists.mp hmove
          exact ⟨.main, s', hs'⟩
      | _ => rw [hm] at hin; cases hin
  | worker i =>
      have hin : (s.workers i).asWorker.inGlobal = true := hin
      apply canMove_of_worker (i := i)
      generalize s.workers i = w at hin ⊢
      obtain ⟨pc, k⟩ := w
      cases pc with
      | increment threadId p =>
          rw [incrementWrapper, Option.isSome_map]
          exact increment_isSome _ _ _ (by rintro rfl; cases hin) (by rintro rfl; cases hin)
      | _ => cases hin

/-- The holder of a slot can go on, or waits for `globallock`. -/
theorem Books.slot_moves (hB : Books MAX t s) {k : Fin n} {j : Tid n}
    (h : s.count.locallock k = some j) : (main n MAX t).CanMove s := by
  have hin := (hB.inv.slot k j).mpr h
  cases j with
  | main =>
      have hin : (s.main.asWorker.point k).isSome = true := hin
      cases hm : s.main <;> rw [hm] at hin <;> cases hin
  | worker i =>
      have hin : ((s.workers i).asWorker.point k).isSome = true := hin
      cases hglobal : s.count.globallock with
      | some j' => exact hB.global_moves hglobal
      | none =>
          apply canMove_of_worker (i := i)
          generalize s.workers i = w at hin ⊢
          obtain ⟨pc, k'⟩ := w
          cases pc with
          | increment threadId p =>
              rw [incrementWrapper, Option.isSome_map]
              refine increment_isSome _ _ _ (fun hp => ?_) fun _ => hglobal
              subst hp
              simp at hin
          | _ => cases hin

/-- Somebody can go on until `main` has printed. -/
theorem Books.canMove (hB : Books MAX t s) (hA : Assigned s)
    (hmain : ∀ rc, s.main ≠ .printed rc) : (main n MAX t).CanMove s := by
  have hmoves : (mainStep s s.main).isSome → (main n MAX t).CanMove s := by
    intro hsome
    obtain ⟨s', hs'⟩ := Option.isSome_iff_exists.mp hsome
    exact ⟨.main, s', hs'⟩
  cases hm : s.main with
  | forCreate i | storeId i | storeCount i | create i | forJoin i =>
      exact hmoves (by rw [hm]; rfl)
  | printed rc => exact absurd hm (hmain rc)
  | get p =>
      cases p with
      | lockGlobal =>
          cases hglobal : s.count.globallock with
          | some j => exact hB.global_moves hglobal
          | none => exact hmoves (by rw [hm]; simp [mainStep, get, hglobal, Mutex.lock])
      | loadValue | unlockGlobal rc => exact hmoves (by rw [hm]; rfl)
  | join i =>
      by_cases hfinished : (s.workers i).pc = .finished
      · exact hmoves (by rw [hm, mainStep, if_pos hfinished]; rfl)
      · -- the worker that is joined can go on, or the one that it waits for
        have hcreated : (s.workers i).pc ≠ .notCreated := by
          intro hnot
          have := (hB.control.created i).mp hnot
          rw [hm] at this
          exact absurd i.isLt (Nat.not_lt.mpr this)
        obtain ⟨hcount, hid⟩ := assigned_of_created hB.control hA hcreated
        cases hglobal : s.count.globallock with
        | some j => exact hB.global_moves hglobal
        | none =>
            by_cases hslot : ∃ k j, s.count.locallock k = some j
            · obtain ⟨k, j, hk⟩ := hslot
              exact hB.slot_moves hk
            · apply canMove_of_worker (i := i)
              generalize s.workers i = w at hfinished hcreated ⊢
              obtain ⟨pc, k⟩ := w
              cases pc with
              | notCreated => exact absurd rfl hcreated
              | finished => exact absurd rfl hfinished
              | loop => rfl
              | loadCount =>
                  rw [incrementWrapper, Option.isSome_map]
                  exact Option.isSome_iff_ne_none.mpr hcount
              | loadId =>
                  rw [incrementWrapper, Option.isSome_map]
                  exact Option.isSome_iff_ne_none.mpr hid
              | increment threadId p =>
                  rw [incrementWrapper, Option.isSome_map]
                  refine increment_isSome _ _ _ (fun _ => ?_) fun _ => hglobal
                  rw [Option.eq_none_iff_forall_ne_some]
                  exact fun j hj => hslot ⟨threadId, j, hj⟩

end Progress

/-! ## Runs -/

/-- A state of a run in which the slots have been handed over `k` times. -/
structure HandedOver (MAX : Nat) (t : Int) (k : Nat) (s : State n) : Prop extends
    Books MAX t s where
  assigned : Assigned s
  collected : collected s = t * k

theorem steps_start (n MAX : Nat) (t : Int) : (start n t).steps MAX = n * (8 * MAX + 8) + 5 := by
  have hworkers : total (Wrapper.steps MAX) (start n t).workers = n * (8 * MAX + 2) := by
    simp [total, start, Wrapper.steps]
  rw [State.steps, hworkers, show n * (8 * MAX + 8) = n * (8 * MAX + 2) + n * 6 from by
    rw [← Nat.mul_add]]
  simp only [start, Main.steps, Nat.sub_zero]
  omega

/-- The length of a run tells how often the slots have been handed over. -/
theorem exists_handedOver (n MAX : Nat) {t : Int} (ht : IsThreshold t) {ls : List (Tid n)} {s : State n}
    (h : (main n MAX t).Reaches ls s) :
    ∃ k, HandedOver MAX t k s ∧ ls.length + s.steps MAX = n * (8 * MAX + 8) + 5 + 6 * k := by
  obtain ⟨k, hk, hclock⟩ := exec_clock (S := main n MAX t) (R := HandedOver MAX t)
    (g := fun k s => 6 * (k : Int) - s.steps MAX) (x := 0) (by
      intro k l s s' hk hstep
      obtain ⟨d, hsteps, hcollected⟩ := hk.clock ht hstep
      refine ⟨k + d, ⟨hk.toBooks.step ht hstep,
        (assigned_inductive n MAX t).step hk.assigned hstep, ?_⟩, ?_⟩
      · rw [hcollected, hk.collected, Nat.cast_add, Int.mul_add]
      · push_cast
        omega)
    ⟨books_start MAX ht, (assigned_inductive n MAX t).init,
      (collected_start n t).trans (Int.mul_zero t).symm⟩ h
  rw [steps_start] at hclock
  exact ⟨k, hk, by omega⟩

theorem inFlight_le_one (p : Option Increment) : inFlight p ≤ 1 := by
  match p with
  | none => exact Int.zero_le_ofNat 1
  | some p => cases p <;> simp

theorem Wrapper.Counts.le {MAX : Nat} {w : Wrapper n} (h : w.Counts MAX) : w.i ≤ MAX := by
  obtain ⟨pc, k⟩ := w
  cases pc <;> simp only [Wrapper.Counts] at h ⊢ <;> omega

theorem le_mul_natCast {t : Int} (ht : 1 ≤ t) (k : Nat) : (k : Int) ≤ t * k := by
  have := Int.mul_le_mul_of_nonneg_right ht (Int.natCast_nonneg k)
  omega

/-- A bound for how often they are, if not the best one. -/
theorem HandedOver.le {MAX k : Nat} {t : Int} (ht : 1 ≤ t) {s : State n}
    (hk : HandedOver MAX t k s) : k ≤ n * MAX + n := by
  have hledger := hk.collected
  unfold SloppyCounter.collected at hledger
  have hflight : inFlightTotal (calls s) ≤ n := by
    calc inFlightTotal (calls s) ≤ ∑ _k : Fin n, 1 :=
          Finset.sum_le_sum fun j _ => inFlight_le_one (point (calls s) j)
      _ = n := by simp
  have howed : 0 ≤ owedTotal (calls s) :=
    Finset.sum_nonneg fun j _ => (hk.inv.bound j).owed_nonneg ht
  have hcounters : ∑ j, ((s.workers j).i : Int) ≤ n * MAX := by
    calc ∑ j, ((s.workers j).i : Int) ≤ ∑ _j : Fin n, (MAX : Int) :=
          Finset.sum_le_sum fun j _ => by exact_mod_cast (hk.control.counts j).le
      _ = n * MAX := by simp
  have hle : (k : Int) ≤ t * k := le_mul_natCast ht k
  have : (k : Int) ≤ ((n * MAX + n : Nat) : Int) := by
    push_cast
    omega
  exact_mod_cast this

/-- When `main` has printed, no lock is taken. -/
theorem Books.free_of_printed {MAX : Nat} {t : Int} {s : State n} (hB : Books MAX t s) {rc : Int}
    (h : s.main = .printed rc) : s.count.globallock = none ∧ ∀ k, s.count.locallock k = none := by
  obtain ⟨hall, hquiet⟩ := hB.control.quiet_of_printed h
  constructor
  · rw [Option.eq_none_iff_forall_ne_some]
    intro j hj
    have hin := (hB.inv.global j).mpr hj
    cases j with
    | main =>
        have hin : s.main.asWorker.inGlobal = true := hin
        rw [h] at hin
        cases hin
    | worker i =>
        have hin : (s.workers i).asWorker.inGlobal = true := hin
        rw [Wrapper.asWorker, hall i] at hin
        cases hin
  · intro k
    have hpoint := point_of_quiet hquiet k
    rw [Option.eq_none_iff_forall_ne_some]
    intro j hj
    have hin := (hB.inv.slot k j).mpr hj
    rw [point, show (calls s).shared.locallock k = some j from hj, Option.bind_some] at hpoint
    rw [hpoint] at hin
    cases hin

/-- What the counter holds when `main` has printed. -/
theorem HandedOver.printed {MAX k : Nat} {t : Int} {s : State n} (hk : HandedOver MAX t k s)
    {rc : Int} (h : s.main = .printed rc) :
    rc = signed 32 (t * k) ∧ t * k + ∑ j, s.count.locals j = (n * MAX : Nat)
      ∧ ∀ j, 0 ≤ s.count.locals j ∧ s.count.locals j < t := by
  obtain ⟨hrc, hsum⟩ := hk.collected_of_printed h
  obtain ⟨-, hquiet⟩ := hk.control.quiet_of_printed h
  rw [hk.collected] at hrc hsum
  refine ⟨hrc, hsum, fun j => ?_⟩
  have hbound := hk.inv.bound j
  rw [point_of_quiet hquiet] at hbound
  exact hbound

/-- **The program ends**, under every schedule and whatever ids its workers have read, and its
length tells what it prints: with `k` hand-overs of a slot it has taken
`n * (8 * MAX + 7) + 5 + 6 * k` steps and prints `threshold * k`, as an `int`; that is the
number itself if no more than `INT_MAX` increments are made. What is missing of the `n * MAX`
increments is left in the slots, less than `threshold` in each, and no lock is taken. -/
theorem sloppy_counter_ends (n MAX : Nat) {threshold : Int} (ht : IsThreshold threshold) :
    (main n MAX threshold).EndsWithin (n * (8 * MAX + 7) + 5 + 6 * (n * MAX)) fun ls s =>
      ∃ k : Nat, ls.length = n * (8 * MAX + 7) + 5 + 6 * k
        ∧ s.main = .printed (signed 32 (threshold * k))
        ∧ (((n * MAX : Nat) : Int) ≤ intMax → s.main = .printed (threshold * k))
        ∧ threshold * k + ∑ j, s.count.locals j = (n * MAX : Nat)
        ∧ (∀ j, 0 ≤ s.count.locals j ∧ s.count.locals j < threshold)
        ∧ (∀ i, (s.workers i).pc = .finished)
        ∧ s.count.globallock = none ∧ ∀ j, s.count.locallock j = none := by
  refine EndsWithin.tighten (n := n * (8 * MAX + 8) + 5 + 6 * (n * MAX + n))
    ⟨fun hrun => ?_, fun {ls s} hrun hstuck => ?_⟩ ?_
  · obtain ⟨k, hk, hlen⟩ := exists_handedOver n MAX ht hrun
    have := hk.le ht.1
    omega
  · obtain ⟨k, hk, hlen⟩ := exists_handedOver n MAX ht hrun
    obtain ⟨rc, hprinted⟩ : ∃ rc, s.main = .printed rc := by
      by_contra hnot
      exact hstuck (hk.canMove hk.assigned fun rc hrc => hnot ⟨rc, hrc⟩)
    obtain ⟨rfl, hsum, hlocals⟩ := hk.printed hprinted
    obtain ⟨hall, -⟩ := hk.control.quiet_of_printed hprinted
    have hworkers : total (Wrapper.steps MAX) s.workers = n := by
      rw [total, Finset.sum_congr rfl fun i _ => by rw [Wrapper.steps, hall i]]
      simp
    refine ⟨k, ?_, hprinted, fun hfew => ?_, hsum, hlocals, hall, hk.free_of_printed hprinted⟩
    · rw [State.steps, hprinted, hworkers, Main.steps,
        show n * (8 * MAX + 8) = n * (8 * MAX + 7) + n from rfl] at hlen
      omega
    · have hpos : 0 ≤ threshold * k :=
        (Int.natCast_nonneg k).trans (le_mul_natCast ht.1 k)
      have hnonneg : 0 ≤ ∑ j, s.count.locals j := Finset.sum_nonneg fun j _ => (hlocals j).1
      rw [hprinted, (signed_eq_self_iff hpos).mpr (by omega)]
  · rintro ls s ⟨k, hlen, -, -, hsum, hlocals, -⟩
    have hnonneg : 0 ≤ ∑ j, s.count.locals j := Finset.sum_nonneg fun j _ => (hlocals j).1
    have hle : (k : Int) ≤ threshold * k := le_mul_natCast ht.1 k
    have : (k : Int) ≤ ((n * MAX : Nat) : Int) := by omega
    omega

/-- Two workers with three increments each, and a threshold of two. -/
theorem sloppy_counter_ends_two : ∃ (ls : List (Tid 2)) (s : State 2) (k : Nat),
    (main 2 3 2).Reaches ls s ∧ ls.length = 67 + 6 * k ∧ s.main = .printed (2 * k)
      ∧ 2 * k + ∑ j, s.count.locals j = 6 := by
  obtain ⟨ls, s, hrun, -, k, hlen, -, hprinted, hsum, -⟩ :=
    (sloppy_counter_ends 2 3 (show IsThreshold 2 from ⟨by decide, by decide⟩)).exists_run
  exact ⟨ls, s, k, hrun, hlen, hprinted (by decide), hsum⟩

end CAdvanced.SloppyCounter
