import CAdvanced.Interleave.ForkJoin
import CAdvanced.Barrier.Invariant
import Mathlib.Data.List.FinRange

/-!
# Barrier — Termination

The whole of `barrier.c`, to its end: every child takes nine steps, and one more if
it sees `count == threads` and posts; each of these posts leaves one unit behind in
the semaphore (`count_sees`). What has been printed by then is every "before" once, in some order,
and after all of them every "after" once.
-/

namespace CAdvanced.Barrier

open Interleave System

/-! ## Counting steps -/

/-- The steps to the end of `barrier`, without the extra post. -/
@[simp] def Point.steps : Point → Nat
  | .waitMutex => 7
  | .loadCount => 6
  | .storeCount _ => 5
  | .postMutex => 4
  | .testCount => 3
  | .postBarrier | .waitBarrier => 2
  | .postAgain => 1

/-- The steps to the end of the child, without the extra post. -/
@[simp] def Child.steps : Child → Nat
  | .printBefore => 9
  | .barrier p => p.steps + 1
  | .printAfter => 1
  | .finished => 0

/-- A step brings the steps down by one, or it is the extra post: one more unit in the
semaphore, or in the hands of the one who came through. -/
theorem child_steps {threadId : Nat} {s s' : Shared} {t t' : Child}
    (h : child threadId s t = some (s', t')) :
    s.b.barrier + t.holds + t'.steps + 1 = s'.b.barrier + t'.holds + t.steps := by
  cases t with
  | printBefore | printAfter =>
      cases h
      simp
  | finished => cases h
  | barrier p =>
      simp only [child, Option.map_eq_some_iff, Prod.exists, Prod.mk.injEq] at h
      obtain ⟨b, n, h, rfl, rfl⟩ := h
      cases p with
      | waitMutex | waitBarrier =>
          simp only [barrier, Option.map_eq_some_iff, semWait_eq_some, Prod.mk.injEq] at h
          obtain ⟨u, hu, rfl, rfl⟩ := h
          simp [hu]
      | testCount =>
          simp only [barrier, Option.some.injEq, Prod.mk.injEq] at h
          obtain ⟨rfl, rfl⟩ := h
          split <;> simp
      | _ =>
          simp only [barrier, Option.some.injEq, Prod.mk.injEq] at h
          obtain ⟨rfl, rfl⟩ := h
          simp [semPost]

variable {numThreads : Nat}

/-- The steps taken so far, from what is left and from the extra posts. -/
theorem length_account (hpos : 0 < numThreads) {ls : List (Fin numThreads)}
    {c : Conf (Fin numThreads) Shared Child} (h : (program numThreads).Reaches ls c) :
    ls.length + total Child.steps c.threads
      = 9 * numThreads + c.shared.b.barrier + total Child.holds c.threads := by
  have hclock := (inv_inductive hpos).exec_clock
    (g := fun c => (c.shared.b.barrier + total Child.holds c.threads : Nat)
      - (total Child.steps c.threads : Int)) (by
      intro i c c' _ hstep
      have hchild := child_steps (Conf.step_mover hstep)
      have hholds := Conf.total_step Child.holds hstep
      have hsteps := Conf.total_step Child.steps hstep
      omega) (inv_inductive hpos).init h
  have hholds : total Child.holds (program numThreads).init.threads = 0 := total_initial rfl
  have hsteps : total Child.steps (program numThreads).init.threads = 9 * numThreads := by
    simp [program, initial, total, Nat.mul_comm]
  have hbarrier : (program numThreads).init.shared.b.barrier = 0 := rfl
  rw [hholds, hsteps, hbarrier] at hclock
  omega

/-! ## The output -/

/-- What is printed: the "before" of the children `bs`, then the "after" of the
children `as`. -/
def lines (bs as : List (Fin numThreads)) : List Line :=
  bs.map (fun i => Line.before i) ++ as.map fun i => Line.after i

theorem lines_before {bs as : List (Fin numThreads)} {i : Fin numThreads} (h : as = []) :
    lines bs as ++ [Line.before i] = lines (bs ++ [i]) as := by
  simp [lines, h]

theorem lines_after {bs as : List (Fin numThreads)} {i : Fin numThreads} :
    lines bs as ++ [Line.after i] = lines bs (as ++ [i]) := by
  simp [lines]

/-- `bs` have printed their first line, and `as` of them their second one. -/
structure Said (c : Conf (Fin numThreads) Shared Child) (bs as : List (Fin numThreads)) :
    Prop where
  printed : c.shared.printed = lines bs as
  nodupBefore : bs.Nodup
  nodupAfter : as.Nodup
  before : ∀ j, j ∈ bs ↔ c.threads j ≠ .printBefore
  after : ∀ j, j ∈ as ↔ c.threads j = .finished

theorem said_init : Said (initial numThreads) [] [] where
  printed := rfl
  nodupBefore := .nil
  nodupAfter := .nil
  before := by simp [initial]
  after := by simp [initial]

/-- Only the child itself comes to its end, and from its second line. -/
theorem child_finished {threadId : Nat} {s s' : Shared} {t t' : Child}
    (h : child threadId s t = some (s', t')) :
    t ≠ .finished ∧ t' ≠ .printBefore ∧ (t' = .finished ↔ t = .printAfter) := by
  cases t with
  | printBefore | printAfter =>
      cases h
      simp
  | finished => cases h
  | barrier p =>
      simp only [child, Option.map_eq_some_iff, Prod.exists, Prod.mk.injEq] at h
      obtain ⟨b, n, -, -, rfl⟩ := h
      cases n <;> simp

theorem Said.step {c c' : Conf (Fin numThreads) Shared Child} {i : Fin numThreads}
    {bs as : List (Fin numThreads)} (hS : Said c bs as) (hI : Inv c)
    (h : c.step (child i) i = some c') : ∃ bs' as', Said c' bs' as' := by
  obtain ⟨hunfinished, hstarted, hends⟩ := child_finished (Conf.step_mover h)
  have hothers : ∀ {j}, j ≠ i → c'.threads j = c.threads j := Conf.step_threads_ne h
  rcases child_printed (Conf.step_mover h) with ⟨ht, hs⟩ | ⟨ht, hs⟩ | ⟨ht, hs⟩
  · -- nobody has printed a second line yet: the mover would have been awaited
    have hnone : as = [] := by
      rw [List.eq_nil_iff_forall_not_mem]
      intro j hj
      have hall := hI.incremented_of_returned (i := j) (by rw [(hS.after j).mp hj]; rfl) i
      rw [ht] at hall
      cases hall
    have hend : c'.threads i ≠ .finished := fun he => by
      rw [hends, ht] at he
      cases he
    refine ⟨bs ++ [i], as, by rw [hs, hS.printed, lines_before hnone], ?_, hS.nodupAfter, ?_, ?_⟩
    · have hnew : i ∉ bs := fun hi => (hS.before i).mp hi ht
      exact List.nodup_append.mpr ⟨hS.nodupBefore, List.nodup_singleton i, by
        rintro j hj k hk rfl
        exact hnew (List.mem_singleton.mp hk ▸ hj)⟩
    · intro j
      rw [List.mem_append, List.mem_singleton]
      by_cases hji : j = i
      · subst hji
        simp [hstarted]
      · simp [hji, hothers hji, hS.before j]
    · intro j
      by_cases hji : j = i
      · subst hji
        simp [hnone, hend]
      · rw [hothers hji]
        exact hS.after j
  · refine ⟨bs, as ++ [i], by rw [hs, hS.printed, lines_after], hS.nodupBefore, ?_, ?_, ?_⟩
    · have hnew : i ∉ as := fun hi => hunfinished ((hS.after i).mp hi)
      exact List.nodup_append.mpr ⟨hS.nodupAfter, List.nodup_singleton i, by
        rintro j hj k hk rfl
        exact hnew (List.mem_singleton.mp hk ▸ hj)⟩
    · intro j
      by_cases hji : j = i
      · subst hji
        simp [hS.before j, ht, hstarted]
      · rw [hothers hji]
        exact hS.before j
    · intro j
      rw [List.mem_append, List.mem_singleton]
      by_cases hji : j = i
      · subst hji
        simp [hends.mpr ht]
      · simp [hji, hothers hji, hS.after j]
  · refine ⟨bs, as, by rw [hs, hS.printed], hS.nodupBefore, hS.nodupAfter, ?_, ?_⟩
    · intro j
      by_cases hji : j = i
      · subst hji
        simp [hS.before j, ht, hstarted]
      · rw [hothers hji]
        exact hS.before j
    · intro j
      by_cases hji : j = i
      · subst hji
        have hend : c'.threads j ≠ .finished := fun he => by
          have hmove := Conf.step_mover h
          rw [hends.mp he, child, Option.some.injEq, Prod.mk.injEq] at hmove
          simp [← hmove.1] at hs
        simp [hS.after j, hunfinished, hend]
      · rw [hothers hji]
        exact hS.after j

theorem said_inductive (hpos : 0 < numThreads) :
    (program numThreads).Inductive fun c => Inv c ∧ ∃ bs as, Said c bs as where
  init := ⟨inv_init hpos, [], [], said_init⟩
  step := by
    rintro i c c' ⟨hI, bs, as, hS⟩ h
    exact ⟨hI.step h, hS.step hI h⟩

/-! ## The end -/

/-- Who is not through can move, or somebody else can. -/
theorem all_finished (hpos : 0 < numThreads) {c : Conf (Fin numThreads) Shared Child}
    (h : (program numThreads).Reachable c) (hstuck : ¬ (program numThreads).CanMove c)
    (i : Fin numThreads) : c.threads i = .finished := by
  have hI := (inv_inductive hpos).reachable h
  cases hret : (c.threads i).returned with
  | false =>
      obtain ⟨j, -, hmove⟩ := hI.exists_move hret
      exact absurd ⟨j, Conf.step_isSome hmove⟩ hstuck
  | true =>
      cases ht : c.threads i with
      | finished => rfl
      | printAfter =>
          refine absurd ⟨i, Conf.step_isSome (f := child i) ?_⟩ hstuck
          rw [ht]
          rfl
      | _ => rw [ht] at hret; cases hret

/-- **The children end**, whatever the scheduler does, after at most ten steps each. -/
theorem children_end (hpos : 0 < numThreads) :
    (program numThreads).EndsWithin (10 * numThreads) fun ls c =>
      (∀ i, c.threads i = .finished)
        ∧ (∃ bs as, bs.Perm (List.finRange numThreads) ∧ as.Perm (List.finRange numThreads)
          ∧ c.shared.printed = lines bs as)
        ∧ ls.length = 9 * numThreads + c.shared.b.barrier
        ∧ 1 ≤ c.shared.b.barrier ∧ c.shared.b.barrier ≤ numThreads := by
  constructor
  · intro ls c hrun
    have := length_account hpos hrun
    have := ((inv_inductive hpos).reachable hrun.reachable).posts
    have := total_le_numThreads Child.tested_le c.threads
    omega
  · intro ls c hrun hstuck
    have hall := all_finished hpos hrun.reachable hstuck
    obtain ⟨hI, bs, as, hS⟩ := (said_inductive hpos).reachable hrun.reachable
    have hlength := length_account hpos hrun
    rw [total_eq_zero (w := Child.steps) fun i => by rw [hall i]; rfl,
      total_eq_zero (w := Child.holds) fun i => by rw [hall i]; rfl] at hlength
    refine ⟨hall, ⟨bs, as, ?_, ?_, hS.printed⟩, hlength, ?_⟩
    · rw [List.perm_ext_iff_of_nodup hS.nodupBefore (List.nodup_finRange _)]
      simp [hS.before, hall]
    · rw [List.perm_ext_iff_of_nodup hS.nodupAfter (List.nodup_finRange _)]
      simp [hS.after, hall]
    · have hfull := hI.opened (by
        have := le_total Child.opened c.threads ⟨0, hpos⟩
        rw [hall] at this
        exact Nat.lt_of_lt_of_le Nat.zero_lt_one (this.trans (Nat.le_add_left _ _)))
      have hsupply := hI.supply hfull
      rw [total_eq_zero (w := Child.supply) fun i => by rw [hall i]; rfl] at hsupply
      have := hI.posts
      have := total_le_numThreads Child.tested_le c.threads
      omega

/-! ## `main` -/

/-- What `main` does when it has joined the children. -/
inductive Tail where
  | printEnd
  | finished

/-- The end of `main`, one step. -/
def tail (s : Shared) : Tail → Option (Shared × Tail)
  | .printEnd => some (s, .finished)
  | .finished => none

/-- `main`, from `barrier_init` on. -/
def main (numThreads : Nat) :
    Family (Fin numThreads) Shared Child (Fin numThreads) Tail numThreads where
  children := program numThreads
  tid := id
  order := Equiv.refl _
  returned t := decide (t = .finished)
  tail := tail
  start := .printEnd

theorem tail_shared {s : Shared} {m : Tail} {r : Shared × Tail} (h : tail s m = some r) :
    r.1 = s := by
  cases m <;> cases h
  rfl

theorem main_proper (numThreads : Nat) :
    (main numThreads).Proper fun i => child i.val where
  code _ _ := rfl
  ends _ s t ht := by
    cases of_decide_eq_true ht
    rfl

/-! ## Who has seen them all -/

/-- About to post because `count` was `threads`. -/
@[simp] def Point.posting : Point → Nat
  | .postBarrier => 1
  | _ => 0

abbrev Child.posting : Child → Nat := Child.weigh Point.posting 0

/-- The test of the child finds `count == threads`. -/
def Child.sees (b : BarrierT) : Child → Bool
  | .barrier .testCount => b.count = b.threads
  | _ => false

/-- The child whose step it is sees `count == threads`. -/
def sees :
    Option (Fin numThreads) → FamilyState (Fin numThreads) Shared Child Tail numThreads → Bool
  | some i, s => (s.conf.threads i).sees s.conf.shared.b
  | none, _ => false

/-- Who sees `count == threads` brings one more unit: it is on its way, in the semaphore, or in
the hands of one who came through. -/
theorem child_sees {threadId : Nat} {s s' : Shared} {t t' : Child}
    (h : child threadId s t = some (s', t')) :
    s'.b.barrier + t'.holds + t'.posting
      = s.b.barrier + t.holds + t.posting + (t.sees s.b).toNat := by
  cases t with
  | printBefore | printAfter =>
      cases h
      simp [Child.sees]
  | finished => cases h
  | barrier p =>
      simp only [child, Option.map_eq_some_iff, Prod.exists, Prod.mk.injEq] at h
      obtain ⟨b, n, h, rfl, rfl⟩ := h
      cases p with
      | waitMutex | waitBarrier =>
          simp only [barrier, Option.map_eq_some_iff, semWait_eq_some, Prod.mk.injEq] at h
          obtain ⟨u, hu, rfl, rfl⟩ := h
          simp [hu, Child.sees]
      | testCount =>
          simp only [barrier, Option.some.injEq, Prod.mk.injEq] at h
          obtain ⟨rfl, rfl⟩ := h
          split <;> simp_all [Child.sees]
      | _ =>
          simp only [barrier, Option.some.injEq, Prod.mk.injEq] at h
          obtain ⟨rfl, rfl⟩ := h
          simp [semPost, Child.sees]

theorem count_sees {ls : List (Option (Fin numThreads))}
    {s : FamilyState (Fin numThreads) Shared Child Tail numThreads}
    (h : (main numThreads).system.Reaches ls s) :
    (main numThreads).system.count sees ls = s.conf.shared.b.barrier
      + total Child.holds s.conf.threads + total Child.posting s.conf.threads := by
  have hledger := exec_ledger inductive_true (p := sees) (q := fun _ _ => false)
    (g := fun s => (s.conf.shared.b.barrier + total Child.holds s.conf.threads
      + total Child.posting s.conf.threads : Nat)) (by
      intro l s t _ hstep
      cases l with
      | some i =>
          simp only [Family.system, Family.next, Option.ite_none_right_eq_some,
            Option.map_eq_some_iff] at hstep
          obtain ⟨-, c, hc, rfl⟩ := hstep
          have hchild := child_sees (Conf.step_mover hc)
          have hholds := Conf.total_step Child.holds hc
          have hposting := Conf.total_step Child.posting hc
          simp only [sees, Bool.toNat_false] at hchild ⊢
          omega
      | none =>
          have hconf : t.conf = s.conf := Family.parentStep_conf tail_shared hstep
          rw [hconf]
          rfl) trivial h
  rw [tally_false] at hledger
  have hholds : total Child.holds (main numThreads).system.init.conf.threads = 0 :=
    total_initial rfl
  have hposting : total Child.posting (main numThreads).system.init.conf.threads = 0 :=
    total_initial rfl
  have hbarrier : (main numThreads).system.init.conf.shared.b.barrier = 0 := rfl
  rw [hholds, hposting, hbarrier] at hledger
  unfold count
  omega

/-- **The whole program**: whatever the scheduler does, `main` comes to its end, with all
children finished, and every "before" and then every "after" has been printed, each once,
before it prints its own last line. The semaphore is left with one unit for each child that
has seen `count == threads` itself, which is one child at least and all of them at most; and
the run has had nine steps a child and one for each of these posts, and 4 for each child and 3
for `main` itself. -/
theorem barrier_ends (hpos : 0 < numThreads) :
    (main numThreads).system.EndsWithin (14 * numThreads + 3) fun ls s =>
      s.parent = .tail .finished
        ∧ (∀ i, s.conf.threads i = .finished)
        ∧ (∃ bs as, bs.Perm (List.finRange numThreads) ∧ as.Perm (List.finRange numThreads)
          ∧ s.conf.shared.printed = lines bs as)
        ∧ ls.length = 13 * numThreads + 3 + s.conf.shared.b.barrier
        ∧ (main numThreads).system.count sees ls = s.conf.shared.b.barrier
        ∧ 1 ≤ s.conf.shared.b.barrier ∧ s.conf.shared.b.barrier ≤ numThreads := by
  have hends := Family.endsWithin (K := 1)
    (Q := fun c ls x => ls.length = 1 ∧ x = (c.shared, .finished))
    (main_proper numThreads) (children_end hpos)
    (fun hP i => decide_eq_true (hP.1 i)) (fun _ => endsWithin_alone rfl rfl)
  constructor
  · intro ls s hrun
    have := hends.length_le hrun
    omega
  · intro ls s hrun hstuck
    obtain ⟨ls₀, c₀, ls₁, m, hp, hthreads, ⟨hall, hprinted, hlen₀, hposts⟩, ⟨hlen₁, htail⟩,
      hlen⟩ := hends.ended hrun hstuck
    obtain ⟨hs, rfl⟩ := Prod.mk.inj htail
    have hfinished : ∀ i, s.conf.threads i = .finished :=
      fun i => (congrFun hthreads i).trans (hall i)
    have hsees := count_sees hrun
    rw [total_eq_zero (w := Child.holds) fun i => by rw [hfinished i]; rfl,
      total_eq_zero (w := Child.posting) fun i => by rw [hfinished i]; rfl] at hsees
    rw [hs] at hsees ⊢
    exact ⟨hp, hfinished, hprinted, by omega, hsees, hposts⟩

/-- Two children come to their end, and `main` after them. -/
theorem barrier_ends_two : ∃ ls s, (main 2).system.Reaches ls s ∧ ls.length ≤ 31
    ∧ s.parent = .tail .finished := by
  obtain ⟨ls, s, hrun, hle, hp, -⟩ :=
    (barrier_ends (show 0 < 2 by decide)).exists_run
  exact ⟨ls, s, hrun, hle, hp⟩

end CAdvanced.Barrier
