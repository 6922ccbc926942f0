import CAdvanced.Barrier.Model

/-!
# Barrier — Invariant

Several children may see `count == threads` and post, and each child that comes
through posts again, so the value of the barrier semaphore is not determined by
`count`. Three inequalities are enough:

* OPENED: a unit in the semaphore, a child that is about to post and a child that
  came through are there only when `count` is `threads`;
* SUPPLY: once `count` is `threads`, there is a unit in the semaphore, or a child
  that will post one without waiting for it;
* POSTS: the units in the semaphore and in the hands of children are at most as
  many as the children past their test.
-/

namespace CAdvanced.Barrier

open Interleave System

/-! ## Regions of the code, as weights -/

/-- Inside the mutex section. -/
@[simp] def Point.inMutex : Point → Nat
  | .loadCount | .storeCount _ | .postMutex => 1
  | _ => 0

/-- Past the store of `count + 1`. -/
@[simp] def Point.incremented : Point → Nat
  | .waitMutex | .loadCount | .storeCount _ => 0
  | _ => 1

/-- Has seen `count` equal to `threads`, or came through the semaphore. -/
@[simp] def Point.opened : Point → Nat
  | .postBarrier | .postAgain => 1
  | _ => 0

/-- Will post to the semaphore without waiting for it, if `count` is `threads`. -/
@[simp] def Point.supply : Point → Nat
  | .postMutex | .testCount | .postBarrier | .postAgain => 1
  | _ => 0

/-- Holds a unit of the semaphore. -/
@[simp] def Point.holds : Point → Nat
  | .postAgain => 1
  | _ => 0

/-- Past the test and the post that may follow it. -/
@[simp] def Point.tested : Point → Nat
  | .waitBarrier | .postAgain => 1
  | _ => 0

/-- The loaded `count` is still current. -/
@[simp] def Point.RegOk (b : BarrierT) : Point → Prop
  | .storeCount r => r = b.count
  | _ => True

/-- A weight on the points of `barrier`, for a child: zero before the call and
`after` behind it. -/
@[simp] def Child.weigh (w : Point → Nat) (after : Nat) : Child → Nat
  | .printBefore => 0
  | .barrier p => w p
  | .printAfter | .finished => after

abbrev Child.inMutex : Child → Nat := Child.weigh Point.inMutex 0
abbrev Child.incremented : Child → Nat := Child.weigh Point.incremented 1
abbrev Child.opened : Child → Nat := Child.weigh Point.opened 1
abbrev Child.supply : Child → Nat := Child.weigh Point.supply 0
abbrev Child.holds : Child → Nat := Child.weigh Point.holds 0
abbrev Child.tested : Child → Nat := Child.weigh Point.tested 1

@[simp] def Child.RegOk (b : BarrierT) : Child → Prop
  | .barrier p => p.RegOk b
  | _ => True

/-- Has returned from `barrier`. -/
@[simp] def Child.returned : Child → Bool
  | .printAfter | .finished => true
  | _ => false

/-- Has stored its increment of `count`. -/
def Child.hasIncremented (t : Child) : Bool := t.incremented = 1

theorem Child.incremented_le (t : Child) : t.incremented ≤ 1 := by
  cases t with
  | barrier p => cases p <;> simp
  | _ => simp

theorem Child.tested_le (t : Child) : t.tested ≤ 1 := by
  cases t with
  | barrier p => cases p <;> simp
  | _ => simp

theorem Child.opened_of_returned {t : Child} (h : t.returned = true) : t.opened = 1 := by
  cases t <;> simp_all

/-! ## What one step can do -/

/-- One step of a child from `t` with the barrier `b` to `t'` with `b'`. -/
structure ChildSpec (b b' : BarrierT) (t t' : Child) : Prop where
  threads : b'.threads = b.threads
  mutex : b'.mutex + t'.inMutex = b.mutex + t.inMutex
  count : t.RegOk b → b'.count + t.incremented = b.count + t'.incremented
  mono : t.incremented ≤ t'.incremented
  frame : t.inMutex = 0 → b'.count = b.count
  reg : t'.RegOk b'
  opened : 0 < b'.barrier + t'.opened → 0 < b.barrier + t.opened ∨ b.count = b.threads
  stored : t'.incremented ≠ t.incremented → 0 < t'.supply
  supply : b.count = b.threads → b.barrier + t.supply ≤ b'.barrier + t'.supply
  posts : b'.barrier + t'.holds + t.tested ≤ b.barrier + t.holds + t'.tested

theorem child_spec {threadId : Nat} {s s' : Shared} {t t' : Child}
    (h : child threadId s t = some (s', t')) : ChildSpec s.b s'.b t t' := by
  cases t with
  | printBefore | printAfter =>
      simp only [child, Option.some.injEq, Prod.mk.injEq] at h
      obtain ⟨rfl, rfl⟩ := h
      constructor <;> simp
      all_goals omega
  | finished => cases h
  | barrier p =>
      simp only [child, Option.map_eq_some_iff, Prod.exists, Prod.mk.injEq] at h
      obtain ⟨b, n, h, rfl, rfl⟩ := h
      cases p with
      | waitMutex | waitBarrier =>
          simp only [barrier, Option.map_eq_some_iff, semWait_eq_some, Prod.mk.injEq] at h
          obtain ⟨u, hu, rfl, rfl⟩ := h
          constructor <;> simp [hu]
          all_goals omega
      | testCount =>
          simp only [barrier, Option.some.injEq, Prod.mk.injEq] at h
          obtain ⟨rfl, rfl⟩ := h
          split <;> constructor <;> simp_all
      | _ =>
          simp only [barrier, Option.some.injEq, Prod.mk.injEq] at h
          obtain ⟨rfl, rfl⟩ := h
          constructor <;> simp [semPost] <;> omega

/-! ## The invariant -/

variable {numThreads : Nat}

/-- The invariant of the barrier. -/
structure Inv (c : Conf (Fin numThreads) Shared Child) : Prop where
  threads : c.shared.b.threads = numThreads
  mutex : c.shared.b.mutex + total Child.inMutex c.threads = 1
  count : c.shared.b.count = total Child.incremented c.threads
  reg : ∀ i, (c.threads i).RegOk c.shared.b
  opened : 0 < c.shared.b.barrier + total Child.opened c.threads →
    c.shared.b.count = c.shared.b.threads
  supply : c.shared.b.count = c.shared.b.threads →
    0 < c.shared.b.barrier + total Child.supply c.threads
  posts : c.shared.b.barrier + total Child.holds c.threads ≤ total Child.tested c.threads

theorem total_initial {w : Child → Nat} (hw : w .printBefore = 0) :
    total w (initial numThreads).threads = 0 :=
  total_eq_zero fun _ => hw

theorem inv_init (hpos : 0 < numThreads) : Inv (initial numThreads) where
  threads := rfl
  mutex := by rw [total_initial rfl]; rfl
  count := by rw [total_initial rfl]; rfl
  reg := fun _ => trivial
  opened := by
    rw [total_initial rfl]
    exact fun h => absurd h (Nat.lt_irrefl 0)
  supply := fun h => absurd (Int.natCast_inj.mp h) (Nat.ne_of_lt hpos)
  posts := by rw [total_initial rfl]; exact Nat.zero_le _

theorem total_le_numThreads {w : Child → Nat} (hw : ∀ t, w t ≤ 1)
    (ts : Fin numThreads → Child) : total w ts ≤ numThreads := by
  calc total w ts ≤ total (fun _ => 1) ts := total_le_total fun i => hw (ts i)
    _ = numThreads := by simp [total]

/-- Once `count` is `threads`, every child has stored its increment. -/
theorem Inv.all_incremented {c : Conf (Fin numThreads) Shared Child} (hI : Inv c)
    (h : c.shared.b.count = c.shared.b.threads) (i : Fin numThreads) :
    (c.threads i).incremented = 1 := by
  by_contra hne
  have hsum : total Child.incremented c.threads = numThreads := by
    have := hI.count
    have := hI.threads
    omega
  -- the others weigh one each at most
  have hrest := Finset.sum_le_sum (s := Finset.univ.erase i)
    fun j _ => (c.threads j).incremented_le
  have hcard : ∑ _j ∈ Finset.univ.erase i, 1 = numThreads - 1 := by simp
  have hsplit := Finset.add_sum_erase Finset.univ (fun j => (c.threads j).incremented)
    (Finset.mem_univ i)
  have hle := (c.threads i).incremented_le
  have hi := i.isLt
  unfold total at hsum
  omega

theorem Inv.step {c c' : Conf (Fin numThreads) Shared Child} {i : Fin numThreads}
    (hI : Inv c) (h : c.step (child i) i = some c') : Inv c' := by
  have hspec := child_spec (Conf.step_mover h)
  have hthreads := hspec.threads
  -- one child is in the mutex section
  have hmutex : c'.shared.b.mutex + total Child.inMutex c'.threads = 1 := by
    rw [Conf.step_total (g := fun s => s.b.mutex) h hspec.mutex]
    exact hI.mutex
  have hcount : c'.shared.b.count = total Child.incremented c'.threads := by
    have := hspec.count (hI.reg i)
    have := Conf.total_step Child.incremented h
    have := hI.count
    omega
  -- `count` stays once it is `threads`
  have hkeep : c.shared.b.count = c.shared.b.threads → c'.shared.b.count = c.shared.b.count := by
    intro hfull
    have := hI.all_incremented hfull i
    have := hspec.count (hI.reg i)
    have := hspec.mono
    have := (c'.threads i).incremented_le
    omega
  refine ⟨hthreads.trans hI.threads, hmutex, hcount, ?reg, ?opened, ?supply, ?posts⟩
  case reg =>
    apply Conf.step_forall (A := fun s t => t.RegOk s.b) h hspec.reg
    intro j hj
    show (c.threads j).RegOk c'.shared.b
    have hreg := hI.reg j
    cases ht : c.threads j with
    | barrier p =>
        rw [ht] at hreg
        cases p with
        | storeCount r =>
            -- `j` is in the section, so the mover is not
            have hown : (c.threads j).inMutex = 1 := by rw [ht]; rfl
            have := add_le_total Child.inMutex c.threads hj
            have := hI.mutex
            have hframe := hspec.frame (by omega)
            exact hreg.trans hframe.symm
        | _ => trivial
    | _ => trivial
  case opened =>
    intro hpos
    have hbefore : c.shared.b.count = c.shared.b.threads := by
      have hstep := Conf.total_step Child.opened h
      have hle := le_total Child.opened c.threads i
      by_cases hown : 0 < c'.shared.b.barrier + (c'.threads i).opened
      · rcases hspec.opened hown with hold | hfull
        · exact hI.opened (by omega)
        · exact hfull
      · exact hI.opened (by omega)
    rw [hkeep hbefore, hbefore, hthreads]
  case supply =>
    intro hfull
    have hstep := Conf.total_step Child.supply h
    have hle := le_total Child.supply c.threads i
    by_cases hstored : (c'.threads i).incremented = (c.threads i).incremented
    · have hsame := hspec.count (hI.reg i)
      have hbefore : c.shared.b.count = c.shared.b.threads := by omega
      have := hI.supply hbefore
      have := hspec.supply hbefore
      omega
    · have := hspec.stored hstored
      omega
  case posts =>
    have := Conf.total_step Child.holds h
    have := Conf.total_step Child.tested h
    have := hspec.posts
    have := hI.posts
    omega

theorem inv_inductive (hpos : 0 < numThreads) : (program numThreads).Inductive Inv :=
  ⟨inv_init hpos, Inv.step⟩

/-! ## Nobody is early, nobody is stuck -/

/-- A child that is neither through nor at one of the two waits can move. -/
theorem child_isSome_or_waits (threadId : Nat) {s : Shared} {t : Child}
    (h : t.returned = false) :
    (child threadId s t).isSome
      ∨ (s.b.mutex = 0 ∧ t = .barrier .waitMutex)
      ∨ (s.b.barrier = 0 ∧ t = .barrier .waitBarrier) := by
  cases t with
  | printBefore => exact .inl rfl
  | printAfter | finished => cases h
  | barrier p =>
      cases p with
      | waitMutex =>
          rcases Nat.eq_zero_or_pos s.b.mutex with hzero | hpos
          · exact .inr (.inl ⟨hzero, rfl⟩)
          · simp [child, barrier, semWait_isSome hpos]
      | waitBarrier =>
          rcases Nat.eq_zero_or_pos s.b.barrier with hzero | hpos
          · exact .inr (.inr ⟨hzero, rfl⟩)
          · simp [child, barrier, semWait_isSome hpos]
      | _ => exact .inl rfl

/-- **While a child is inside `barrier`, some child inside can move.** -/
theorem Inv.exists_move {c : Conf (Fin numThreads) Shared Child} (hI : Inv c)
    {i : Fin numThreads} (hi : (c.threads i).returned = false) :
    ∃ j, (c.threads j).returned = false ∧ (child j c.shared (c.threads j)).isSome := by
  by_contra hnone
  have hwaits : ∀ j, (c.threads j).returned = false →
      (c.shared.b.mutex = 0 ∧ c.threads j = .barrier .waitMutex)
        ∨ (c.shared.b.barrier = 0 ∧ c.threads j = .barrier .waitBarrier) := by
    intro j hj
    rcases child_isSome_or_waits j (s := c.shared) hj with hmove | hwait
    · exact absurd ⟨j, hj, hmove⟩ hnone
    · exact hwait
  -- so nobody is in the mutex section, and all who wait do so at the semaphore
  have hmutex : c.shared.b.mutex = 1 := by
    have hzero : total Child.inMutex c.threads = 0 := by
      apply total_eq_zero
      intro j
      cases hj : (c.threads j).returned with
      | true => cases ht : c.threads j <;> simp_all
      | false => rcases hwaits j hj with ⟨-, ht⟩ | ⟨-, ht⟩ <;> rw [ht] <;> rfl
    have := hI.mutex
    omega
  have hat : ∀ j, (c.threads j).returned = false →
      c.shared.b.barrier = 0 ∧ c.threads j = .barrier .waitBarrier := by
    intro j hj
    rcases hwaits j hj with ⟨hzero, -⟩ | hwait
    · omega
    · exact hwait
  have hfull : c.shared.b.count = c.shared.b.threads := by
    have hall : total Child.incremented c.threads = numThreads := by
      have hone : ∀ j, (c.threads j).incremented = 1 := by
        intro j
        cases hj : (c.threads j).returned with
        | true => cases ht : c.threads j <;> simp_all
        | false => rw [(hat j hj).2]; rfl
      calc total Child.incremented c.threads = total (fun _ => 1) c.threads := total_congr hone
        _ = numThreads := by simp [total]
    have := hI.count
    have := hI.threads
    omega
  have hsupply : total Child.supply c.threads = 0 := by
    apply total_eq_zero
    intro j
    cases hj : (c.threads j).returned with
    | true => cases ht : c.threads j <;> simp_all
    | false => rw [(hat j hj).2]; rfl
  have := hI.supply hfull
  have := (hat i hi).1
  omega

/-- A child that returned has seen all children increment `count`. -/
theorem Inv.incremented_of_returned {c : Conf (Fin numThreads) Shared Child} (hI : Inv c)
    {i : Fin numThreads} (hi : (c.threads i).returned = true) (j : Fin numThreads) :
    (c.threads j).incremented = 1 := by
  have hopened := le_total Child.opened c.threads i
  rw [Child.opened_of_returned hi] at hopened
  exact hI.all_incremented (hI.opened (by omega)) j

/-- **The barrier**: no child returns before all have incremented `count`; as long
as a child has not returned, some such child has a step; and when all have
returned, the semaphore is left with at least one unit and at most one for each
child. -/
theorem barrier_correct (hpos : 0 < numThreads) {c : Conf (Fin numThreads) Shared Child}
    (h : (program numThreads).Reachable c) :
    (∀ i, (c.threads i).returned = true → ∀ j, (c.threads j).hasIncremented = true)
      ∧ ((∃ i, (c.threads i).returned = false) →
        ∃ j c', (c.threads j).returned = false ∧ (program numThreads).next j c = some c')
      ∧ ((∀ i, (c.threads i).returned = true) →
        1 ≤ c.shared.b.barrier ∧ c.shared.b.barrier ≤ numThreads) := by
  have hI := (inv_inductive hpos).reachable h
  refine ⟨?early, ?stuck, ?left⟩
  case early =>
    intro i hi j
    exact decide_eq_true (hI.incremented_of_returned hi j)
  case stuck =>
    rintro ⟨i, hi⟩
    obtain ⟨j, hj, hmove⟩ := hI.exists_move hi
    obtain ⟨c', hc'⟩ := Conf.step_isSome hmove
    exact ⟨j, c', hj, hc'⟩
  case left =>
    intro hall
    have hfull := hI.opened (by
      have := le_total Child.opened c.threads ⟨0, hpos⟩
      rw [Child.opened_of_returned (hall _)] at this
      omega)
    have hsupply : total Child.supply c.threads = 0 := by
      apply total_eq_zero
      intro j
      have := hall j
      cases ht : c.threads j <;> simp_all
    have := hI.supply hfull
    have := hI.posts
    have := total_le_numThreads Child.tested_le c.threads
    omega

/-- Two children, both through: each of them saw `count == threads` and posted, so
the semaphore is left with two units. -/
theorem barrier_correct_two :
    ∃ c, (program 2).Reachable c ∧ c.shared.b.barrier = 2
      ∧ 1 ≤ c.shared.b.barrier ∧ c.shared.b.barrier ≤ 2 := by
  obtain ⟨c, hrun, hc⟩ := Option.any_eq_true _ _ |>.mp
    (show (((program 2).exec
        (List.replicate 5 0 ++ List.replicate 9 1 ++ List.replicate 4 0) (initial 2)).any
      fun c => c.shared.b.barrier = 2 ∧ ∀ i, (c.threads i).returned = true) = true by
      decide +kernel)
  obtain ⟨htwo, hall⟩ := of_decide_eq_true hc
  exact ⟨c, ⟨_, hrun⟩, htwo, (barrier_correct (by decide) ⟨_, hrun⟩).2.2 hall⟩

/-! ## What the children print -/

/-- In front of every "after" stands every "before". -/
def InOrder (numThreads : Nat) (printed : List Line) : Prop :=
  ∀ pre i post, printed = pre ++ .after i :: post →
    ∀ j < numThreads, Line.before j ∈ pre

theorem InOrder.snoc {printed : List Line} {line : Line} (h : InOrder numThreads printed)
    (hline : ∀ i, line = .after i → ∀ j < numThreads, Line.before j ∈ printed) :
    InOrder numThreads (printed ++ [line]) := by
  intro pre i post heq
  -- the "after" is the new line, or it was there
  rcases List.eq_nil_or_concat post with rfl | ⟨post, last, rfl⟩
  · obtain ⟨rfl, hlast⟩ := List.append_inj' heq rfl
    exact hline i (List.cons.inj hlast).1
  · rw [List.concat_eq_append, ← List.cons_append, ← List.append_assoc] at heq
    exact h pre i post (List.append_inj' heq rfl).1

/-- The lines printed so far are in order, and every child that has called
`barrier` has printed its "before". -/
structure Printed (c : Conf (Fin numThreads) Shared Child) : Prop where
  inv : Inv c
  order : InOrder numThreads c.shared.printed
  before : ∀ j, c.threads j ≠ .printBefore → Line.before j ∈ c.shared.printed

theorem printed_init (hpos : 0 < numThreads) : Printed (initial numThreads) where
  inv := inv_init hpos
  order := by
    intro pre i post heq
    cases pre <;> cases heq
  before := fun _ hj => absurd rfl hj

/-- A step prints nothing, or the line of the mover. -/
theorem child_printed {threadId : Nat} {s s' : Shared} {t t' : Child}
    (h : child threadId s t = some (s', t')) :
    (t = .printBefore ∧ s'.printed = s.printed ++ [.before threadId])
      ∨ (t = .printAfter ∧ s'.printed = s.printed ++ [.after threadId])
      ∨ (t ≠ .printBefore ∧ s'.printed = s.printed) := by
  cases t with
  | printBefore =>
      cases h
      exact .inl ⟨rfl, rfl⟩
  | barrier p =>
      simp only [child, Option.map_eq_some_iff, Prod.mk.injEq] at h
      obtain ⟨r, -, rfl, -⟩ := h
      exact .inr (.inr ⟨by simp, rfl⟩)
  | printAfter =>
      cases h
      exact .inr (.inl ⟨rfl, rfl⟩)
  | finished => cases h

theorem Printed.step {c c' : Conf (Fin numThreads) Shared Child} {i : Fin numThreads}
    (hP : Printed c) (h : c.step (child i) i = some c') : Printed c' := by
  have hI' := hP.inv.step h
  rcases child_printed (Conf.step_mover h) with ⟨ht, hs⟩ | ⟨ht, hs⟩ | ⟨ht, hs⟩
  · refine ⟨hI', ?_, ?_⟩
    · rw [hs]
      exact hP.order.snoc nofun
    · intro j hj
      rw [hs, List.mem_append, List.mem_singleton]
      by_cases hji : j = i
      · exact .inr (by rw [hji])
      · rw [Conf.step_threads_ne h hji] at hj
        exact .inl (hP.before j hj)
  · -- the mover is through, so all the others have printed their first line
    have hall : ∀ j : Fin numThreads, Line.before j ∈ c.shared.printed := by
      intro j
      have hj := hP.inv.incremented_of_returned (i := i) (by rw [ht]; rfl) j
      exact hP.before j fun hat => by rw [hat] at hj; cases hj
    refine ⟨hI', ?_, ?_⟩
    · rw [hs]
      exact hP.order.snoc fun _ _ j hj => hall ⟨j, hj⟩
    · intro j _
      rw [hs]
      exact List.mem_append_left _ (hall j)
  · refine ⟨hI', ?_, ?_⟩
    · rw [hs]
      exact hP.order
    · intro j hj
      rw [hs]
      by_cases hji : j = i
      · rw [hji]
        exact hP.before i ht
      · rw [Conf.step_threads_ne h hji] at hj
        exact hP.before j hj

/-- **Every child prints its "before" before any child prints its "after".** -/
theorem before_printed_first (hpos : 0 < numThreads) {c : Conf (Fin numThreads) Shared Child}
    (h : (program numThreads).Reachable c) : InOrder numThreads c.shared.printed :=
  (Inductive.reachable (I := Printed) ⟨printed_init hpos, Printed.step⟩ h).order

end CAdvanced.Barrier
