import CAdvanced.Openclose.Model

/-!
# Openclose — Limit

What the count is for: as many instances are open as it says, and never more than
`MAX_DEVICES`. That is so as long as every store replaces the value that it was computed
from, and an open still finds room when it loads the count.
-/

namespace CAdvanced.Openclose

open Interleave System CInt

variable {ι : Type}

/-- The instance is open: counted by its `driver_open`, and not yet discounted by its
`driver_close`. -/
def Instance.isOpen : Instance → Nat
  | .opened | .closing _ => 1
  | _ => 0

/-- A call is in progress. -/
def Instance.calls : Instance → Bool
  | .opening _ | .closing _ => true
  | _ => false

/-- How many instances are open. -/
def openInstances [Fintype ι] (c : State ι) : Nat := total Instance.isOpen c.threads

/-- **The promise of the limit**. -/
structure Limit [Fintype ι] [DecidableEq ι] (c : State ι) : Prop where
  atMost : openInstances c ≤ maxDevices
  count : (∀ i, (c.threads i).calls = false) → c.shared = openInstances c
  busy : ∀ i c', (openclose ι).next i c = some c' → c.threads i ≠ .refused →
    c'.threads i = .refused → openInstances c = maxDevices

/-- The step stores what was computed from another value than the one it replaces, or
opens an instance though the count was at the limit when it was loaded. -/
def stale (i : ι) (c : State ι) : Bool :=
  match c.threads i with
  | .opening (.store loaded) => loaded ≠ c.shared ∨ loaded ≥ maxDevices
  | .closing (.store loaded) => loaded ≠ c.shared
  | _ => false

/-! ## One step -/

/-- The count is that of the open instances. -/
structure Inv [Fintype ι] (c : State ι) : Prop where
  count : c.shared = openInstances c
  atMost : c.shared ≤ maxDevices

/-- What fits an `int` stays as it is. -/
theorem signed_of_le {n : Int} (hlow : 0 ≤ n) (hhigh : n ≤ maxDevices) : signed 32 n = n := by
  unfold maxDevices at hhigh
  apply signed_of_fits <;> omega

/-- A step whose store is not stale changes the count as it changes what is open. -/
theorem code_count {count count' : Int} {t t' : Instance} (h : code count t = some (count', t'))
    (hlow : t.isOpen ≤ count) (hhigh : count ≤ maxDevices)
    (hopen : ∀ loaded, t = .opening (.store loaded) → loaded = count ∧ loaded < maxDevices)
    (hclose : ∀ loaded, t = .closing (.store loaded) → loaded = count) :
    count' + t.isOpen = count + t'.isOpen ∧ count' ≤ maxDevices := by
  cases t with
  | fresh | opened =>
      cases h
      exact ⟨rfl, hhigh⟩
  | refused | closed => cases h
  | opening p =>
      cases p with
      | compare =>
          cases h
          refine ⟨?_, hhigh⟩
          unfold driverOpen
          dsimp only
          split <;> rfl
      | load =>
          cases h
          exact ⟨rfl, hhigh⟩
      | store loaded =>
          obtain ⟨rfl, hroom⟩ := hopen loaded rfl
          cases h
          have hsame : signed 32 (loaded + 1) = loaded + 1 := by
            apply signed_of_le
            · exact Int.le_add_one (Int.le_trans (Int.natCast_nonneg _) hlow)
            · exact hroom
          simp only [driverOpen, hsame]
          exact ⟨Int.add_zero _, hroom⟩
  | closing p =>
      cases p with
      | load =>
          cases h
          exact ⟨rfl, hhigh⟩
      | store loaded =>
          obtain rfl := hclose loaded rfl
          cases h
          simp only [Instance.isOpen] at hlow
          have hsame : signed 32 (loaded - 1) = loaded - 1 := by
            apply signed_of_le <;> omega
          simp only [driverClose, hsame, Instance.isOpen, Instance.ofClose]
          omega

variable [Fintype ι]

theorem inv_start : Inv (start ι) := by
  have hnone : openInstances (start ι) = 0 := total_eq_zero fun _ => rfl
  refine ⟨?_, show (0 : Int) ≤ maxDevices by decide⟩
  rw [hnone]
  rfl

variable [DecidableEq ι]

theorem Inv.step {i : ι} {c c' : State ι} (hI : Inv c) (h : (openclose ι).next i c = some c')
    (hstale : stale i c = false) : Inv c' := by
  have hown : (c.threads i).isOpen ≤ openInstances c := le_total _ _ i
  have hmove := Conf.step_mover h
  have htotal := Conf.total_step Instance.isOpen h
  have hcount := hI.count
  have hstep : c'.shared + (c.threads i).isOpen = c.shared + (c'.threads i).isOpen
      ∧ c'.shared ≤ maxDevices := by
    apply code_count hmove
    · omega
    · exact hI.atMost
    · intro loaded hpc
      simp only [stale, hpc, decide_eq_false_iff_not] at hstale
      omega
    · intro loaded hpc
      simp only [stale, hpc, decide_eq_false_iff_not] at hstale
      omega
  refine ⟨?_, hstep.2⟩
  unfold openInstances at hcount ⊢
  omega

/-- An open is refused where the count is at the limit. -/
theorem Inv.limit {c : State ι} (hI : Inv c) : Limit c := by
  have hcount := hI.count
  have hmost := hI.atMost
  refine ⟨by omega, fun _ => hcount, fun i c' h hbefore hafter => ?_⟩
  have hmove := Conf.step_mover h
  rw [hafter] at hmove
  cases hpc : c.threads i with
  | fresh | opened | closed => simp [hpc, code] at hmove
  | refused => exact absurd hpc hbefore
  | opening p =>
      rw [hpc] at hmove
      cases p with
      | compare =>
          by_cases hfull : c.shared ≥ maxDevices
          · omega
          · simp [code, driverOpen, hfull, Instance.ofOpen] at hmove
      | load => simp [code, driverOpen, Instance.ofOpen] at hmove
      | store loaded => simp [code, driverOpen, Instance.ofOpen] at hmove
  | closing p =>
      rw [hpc] at hmove
      cases p <;> simp [code, driverClose, Instance.ofClose] at hmove

/-! ## Over a run -/

/-- **The limit is kept** in a run without a stale store. -/
theorem open_limit {ls : List ι} {c : State ι} (h : (openclose ι).Reaches ls c)
    (hstale : (openclose ι).count stale ls = 0) : Limit c := by
  have hI : Inv c := exec_of_tally_eq_zero (S := openclose ι) Inv.step inv_start h hstale
  exact hI.limit

/-- Two instances are opened one after the other, and the first one is closed. -/
theorem open_limit_two :
    ∃ c : State (Fin 2), (openclose (Fin 2)).Reachable c ∧ c.threads 0 = .closed
      ∧ c.threads 1 = .opened ∧ Limit c := by
  let ls : List (Fin 2) := List.replicate 4 0 ++ List.replicate 4 1 ++ List.replicate 3 0
  obtain ⟨c, hrun, hc⟩ := Option.any_eq_true _ _ |>.mp
    (show ((openclose (Fin 2)).exec ls (start (Fin 2))).any
      (fun c => c.threads 0 = .closed ∧ c.threads 1 = .opened) = true by decide +kernel)
  obtain ⟨hclosed, hopened⟩ := of_decide_eq_true hc
  exact ⟨c, ⟨ls, hrun⟩, hclosed, hopened, open_limit hrun (by decide +kernel)⟩

/-- Two opens load the same count, and the second store undoes the first: two instances are
open, and the count is one. -/
theorem not_open_limit :
    ¬ ∀ c : State (Fin 2), (openclose (Fin 2)).Reachable c → Limit c := by
  intro hall
  obtain ⟨c, hrun, hc⟩ := Option.any_eq_true _ _ |>.mp
    (show ((openclose (Fin 2)).exec [0, 1, 0, 1, 0, 1, 0, 1] (start (Fin 2))).any
      (fun c => (∀ i, (c.threads i).calls = false) ∧ c.shared = 1 ∧ openInstances c = 2) = true
      by decide +kernel)
  obtain ⟨hquiet, hcount, hopen⟩ := of_decide_eq_true hc
  have hsame := (hall c ⟨_, hrun⟩).count hquiet
  omega

/-! ## One call at a time -/

/-- What a call has loaded is still the count, and leaves room for an open. -/
def Instance.Ready (count : Int) : Instance → Prop
  | .opening .load => count < maxDevices
  | .opening (.store loaded) => loaded = count ∧ count < maxDevices
  | .closing (.store loaded) => loaded = count
  | _ => True

/-- A call begins while another one is in progress. -/
def joins (i : ι) (c : State ι) : Bool :=
  (c.threads i = .fresh ∨ c.threads i = .opened) ∧ ∃ j, (c.threads j).calls = true

/-- At most one call is in progress, and what it has loaded is still the count. -/
structure OneByOne (c : State ι) : Prop where
  unique : ∀ i j, (c.threads i).calls = true → (c.threads j).calls = true → i = j
  ready : ∀ i, (c.threads i).Ready c.shared

omit [Fintype ι] [DecidableEq ι] in
theorem Instance.ready_of_not_calls {t : Instance} (h : t.calls = false) (count : Int) :
    t.Ready count := by
  cases t with
  | opening p | closing p => cases h
  | _ => exact trivial

omit [Fintype ι] [DecidableEq ι] in
/-- A call keeps what it has loaded up to date, if nobody else stores. -/
theorem code_ready {count count' : Int} {t t' : Instance} (h : code count t = some (count', t'))
    (ht : t.Ready count) : t'.Ready count' := by
  cases t with
  | fresh | opened =>
      cases h
      exact trivial
  | refused | closed => cases h
  | opening p =>
      cases p with
      | compare =>
          cases h
          unfold driverOpen
          dsimp only
          split
          · exact trivial
          · rename_i hroom
            exact Int.not_le.mp hroom
      | load =>
          cases h
          exact ⟨rfl, ht⟩
      | store loaded =>
          cases h
          exact trivial
  | closing p =>
      cases p with
      | load =>
          cases h
          exact rfl
      | store loaded =>
          cases h
          exact trivial

theorem OneByOne.step {i : ι} {c c' : State ι} (hO : OneByOne c)
    (h : (openclose ι).next i c = some c') (hjoins : joins i c = false) : OneByOne c' := by
  have hmove := Conf.step_mover h
  -- nobody else is in a call
  have hothers : ∀ j, j ≠ i → (c.threads j).calls = false := by
    intro j hj
    cases hcalls : (c.threads j).calls with
    | false => rfl
    | true =>
        have hnot := of_decide_eq_false hjoins
        cases hpc : c.threads i with
        | fresh => exact absurd ⟨.inl hpc, j, hcalls⟩ hnot
        | opened => exact absurd ⟨.inr hpc, j, hcalls⟩ hnot
        | opening p | closing p => exact absurd (hO.unique j i hcalls (by rw [hpc]; rfl)) hj
        | refused | closed => simp [hpc, code] at hmove
  have hmover : ∀ j, (c'.threads j).calls = true → j = i := by
    intro j hcalls
    by_contra hj
    rw [Conf.step_threads_ne h hj, hothers j hj] at hcalls
    cases hcalls
  refine ⟨fun j k hj hk => (hmover j hj).trans (hmover k hk).symm, ?_⟩
  apply Conf.step_forall (A := fun count t => t.Ready count) h
  · exact code_ready hmove (hO.ready i)
  · exact fun j hj => Instance.ready_of_not_calls (hothers j hj) _

/-- **One at a time**: a run in which no call begins while another one is in progress has
no stale store. -/
theorem not_stale_of_one_by_one {ls : List ι} {c : State ι} (h : (openclose ι).Reaches ls c)
    (hjoins : (openclose ι).count joins ls = 0) : (openclose ι).count stale ls = 0 := by
  have hbudget : (openclose ι).tally stale ls (start ι) ≤ 0 := by
    refine tally_le_of_budget (S := openclose ι) (I := OneByOne) (b := fun _ => 0) ?_
      ⟨fun _ _ => nofun, fun _ => trivial⟩ h hjoins
    intro i c c' hO hnext hl
    refine ⟨hO.step hnext hl, ?_⟩
    have hready := hO.ready i
    have hnot : stale i c = false := by
      unfold stale
      cases hpc : c.threads i with
      | opening p =>
          rw [hpc] at hready
          cases p with
          | store loaded =>
              refine decide_eq_false ?_
              obtain ⟨hsame, hroom⟩ := hready
              omega
          | _ => rfl
      | closing p =>
          rw [hpc] at hready
          cases p with
          | store loaded => exact decide_eq_false fun hne => hne hready
          | load => rfl
      | _ => rfl
    rw [hnot]
    rfl
  exact Nat.le_zero.mp hbudget

end CAdvanced.Openclose
