import CAdvanced.Interleave.Threads
import Mathlib.Algebra.Ring.Int.Defs

/-!
# Interleave — termination under every schedule

A run of a `System` is a schedule, so "the program ends, whatever the scheduler
does" is a bound on the length of schedules, together with what holds where no
label can move any more (`EndsWithin`). No fairness is needed: a schedule that
never picks some thread comes to an end as well, and then that thread cannot move.

* `EndsWithin.completes` — every run can be run to its end;
* `EndsWithin.tighten` — a bound that holds at the end holds all the way;
* `Inductive.length_le_tally` / `Inductive.length_le` — the measure rule: a number that
  every step brings down bounds the length of a run;
* `Inductive.exec_clock` / `Inductive.length_eq` — a number that every step moves by one
  counts its steps;
* `threads_length_le` / `threads_length_eq` — the same for a weight of the local
  states, summed over the threads.
-/

namespace Interleave

namespace System

variable {σ ℓ : Type*} {S : System σ ℓ}

/-- **Total correctness under every schedule**: no run has more than `n` steps, and a
run that nobody can continue has ended in `P`. -/
structure EndsWithin (S : System σ ℓ) (n : Nat) (P : List ℓ → σ → Prop) : Prop where
  length_le : ∀ {ls s}, S.Reaches ls s → ls.length ≤ n
  ended : ∀ {ls s}, S.Reaches ls s → ¬ S.CanMove s → P ls s

/-- However far a run has come, it can be run to its end, in the steps that are left. -/
theorem EndsWithin.completes {n : Nat} {P : List ℓ → σ → Prop} (h : S.EndsWithin n P)
    {ls : List ℓ} {s : σ} (hrun : S.Reaches ls s) :
    ∃ ls' t, S.exec ls' s = some t ∧ (ls ++ ls').length ≤ n ∧ P (ls ++ ls') t := by
  -- by induction on the steps that are left
  induction hk : n - ls.length generalizing ls s with
  | zero =>
      have hstuck : ¬ S.CanMove s := by
        rintro ⟨l, t, hl⟩
        have hlen := h.length_le (exec_append_eq_some.mpr ⟨s, hrun, exec_singleton.trans hl⟩)
        rw [List.length_append, List.length_singleton] at hlen
        omega
      exact ⟨[], s, rfl, by simpa using h.length_le hrun, by simpa using h.ended hrun hstuck⟩
  | succ k ih =>
      by_cases hmove : S.CanMove s
      · obtain ⟨l, u, hl⟩ := hmove
        have hu : S.Reaches (ls ++ [l]) u :=
          exec_append_eq_some.mpr ⟨s, hrun, exec_singleton.trans hl⟩
        have hleft : n - (ls ++ [l]).length = k := by
          rw [List.length_append, List.length_singleton]
          omega
        obtain ⟨ls', t, ht, hlen, hP⟩ := ih hu hleft
        refine ⟨l :: ls', t, exec_cons_eq_some.mpr ⟨u, hl, ht⟩, ?_, ?_⟩
        · simpa using hlen
        · simpa using hP
      · exact ⟨[], s, rfl, by simpa using h.length_le hrun, by simpa using h.ended hrun hmove⟩

/-- There is a run that comes to its end. -/
theorem EndsWithin.exists_run {n : Nat} {P : List ℓ → σ → Prop} (h : S.EndsWithin n P) :
    ∃ ls s, S.Reaches ls s ∧ ls.length ≤ n ∧ P ls s := by
  obtain ⟨ls, s, hrun, hlen, hP⟩ := h.completes (s := S.init) (exec_nil _)
  exact ⟨ls, s, hrun, hlen, hP⟩

/-- If the end of a run tells how long it was at most, that bounds all runs. -/
theorem EndsWithin.tighten {n m : Nat} {P : List ℓ → σ → Prop} (h : S.EndsWithin n P)
    (hend : ∀ {ls s}, P ls s → ls.length ≤ m) : S.EndsWithin m P where
  length_le hrun := by
    obtain ⟨ls', t, -, -, hP⟩ := h.completes hrun
    have := hend hP
    rw [List.length_append] at this
    omega
  ended := h.ended

/-- **Induction along a run**, from its start to its end. -/
theorem Reaches.induction {Q : List ℓ → σ → Prop} (hinit : Q [] S.init)
    (hstep : ∀ {ls s l t}, S.Reaches ls s → Q ls s → S.next l s = some t → Q (ls ++ [l]) t)
    {ls : List ℓ} {s : σ} (h : S.Reaches ls s) : Q ls s := by
  induction ls using List.reverseRecOn generalizing s with
  | nil =>
      cases h
      exact hinit
  | append_singleton ls l ih =>
      obtain ⟨u, hu, hl⟩ := exec_append_eq_some.mp h
      exact hstep hu (ih hu) (exec_singleton.symm.trans hl)

/-! ## The measure rule -/

/-- **The measure rule with refunds**: a number that every step brings down, except that a `p`
step may raise it by less than `k`, bounds the length of a run by its `p` steps. -/
theorem Inductive.length_le_tally {I : σ → Prop} (hI : S.Inductive I) {μ : σ → Nat} {k : Nat}
    {p : ℓ → σ → Bool}
    (hstep : ∀ {l s t}, I s → S.next l s = some t → μ t < μ s + k * (p l s).toNat) {ls : List ℓ}
    {s t : σ} (hs : I s) (hrun : S.exec ls s = some t) :
    ls.length + μ t ≤ μ s + k * S.tally p ls s := by
  induction ls generalizing s with
  | nil =>
      cases hrun
      simp
  | cons l ls ih =>
      obtain ⟨u, hu, ht⟩ := exec_cons_eq_some.mp hrun
      have hfirst := hstep hs hu
      have hrest := ih (hI.step hs hu) ht
      rw [List.length_cons, tally_cons hu, Nat.mul_add]
      omega

/-- A number that every step brings down bounds the length of a run. -/
theorem Inductive.length_le {I : σ → Prop} (hI : S.Inductive I) {μ : σ → Nat}
    (hstep : ∀ {l s t}, I s → S.next l s = some t → μ t < μ s) {ls : List ℓ} {s t : σ}
    (hs : I s) (hrun : S.exec ls s = some t) : ls.length + μ t ≤ μ s := by
  have hle := hI.length_le_tally (k := 0) (p := fun _ _ => false)
    (fun hs hu => Nat.lt_add_right _ (hstep hs hu)) hs hrun
  omega

/-- **Running out**: if the `p` labels keep `I` and bring a number down, taking them one
after the other leads to a state where none of them can move. -/
theorem exists_exhausted {I : σ → Prop} {p : ℓ → Prop} {μ : σ → Nat}
    (hstep : ∀ {l s t}, p l → I s → S.next l s = some t → I t ∧ μ t < μ s) {s : σ} (hs : I s) :
    ∃ ls t, S.exec ls s = some t ∧ I t ∧ ∀ l, p l → S.next l t = none := by
  induction hn : μ s using Nat.strong_induction_on generalizing s with
  | h n ih =>
      by_cases hnone : ∀ l, p l → S.next l s = none
      · exact ⟨[], s, rfl, hs, hnone⟩
      · obtain ⟨l, hl⟩ := not_forall.mp hnone
        obtain ⟨hp, hmove⟩ := Classical.not_imp.mp hl
        obtain ⟨u, hu⟩ := Option.ne_none_iff_exists'.mp hmove
        obtain ⟨hI, hless⟩ := hstep hp hs hu
        obtain ⟨ls, t, ht, hend⟩ := ih (μ u) (hn ▸ hless) hI rfl
        exact ⟨l :: ls, t, exec_cons_eq_some.mpr ⟨u, hu, ht⟩, hend⟩

/-- **The clock**: a number that every step raises by one counts the steps of a run. It may
be read off something that comes with the state, as long as `R` says how. -/
theorem exec_clock {γ : Type*} {R : γ → σ → Prop} {g : γ → σ → Int}
    (hstep : ∀ {x l s t}, R x s → S.next l s = some t → ∃ y, R y t ∧ g y t = g x s + 1)
    {x : γ} {ls : List ℓ} {s t : σ} (hs : R x s) (hrun : S.exec ls s = some t) :
    ∃ y, R y t ∧ g y t = g x s + ls.length := by
  induction ls generalizing x s with
  | nil =>
      cases hrun
      exact ⟨x, hs, by simp⟩
  | cons l ls ih =>
      obtain ⟨u, hu, ht⟩ := exec_cons_eq_some.mp hrun
      obtain ⟨y, hy, hone⟩ := hstep hs hu
      obtain ⟨z, hz, hrest⟩ := ih hy ht
      refine ⟨z, hz, ?_⟩
      rw [hrest, hone, List.length_cons]
      push_cast
      omega

theorem Inductive.exec_clock {I : σ → Prop} (hI : S.Inductive I) {g : σ → Int}
    (hstep : ∀ {l s t}, I s → S.next l s = some t → g t = g s + 1) {ls : List ℓ} {s t : σ}
    (hs : I s) (hrun : S.exec ls s = some t) : g t = g s + ls.length := by
  obtain ⟨-, -, hclock⟩ := System.exec_clock (R := fun (_ : Unit) s => I s) (g := fun _ s => g s)
    (fun hs hu => ⟨(), hI.step hs hu, hstep hs hu⟩) (x := ()) hs hrun
  exact hclock

/-- A measure that every step brings down by one is such a clock. -/
theorem Inductive.length_eq {I : σ → Prop} (hI : S.Inductive I) {μ : σ → Nat}
    (hstep : ∀ {l s t}, I s → S.next l s = some t → μ t + 1 = μ s) {ls : List ℓ} {s t : σ}
    (hs : I s) (hrun : S.exec ls s = some t) : ls.length + μ t = μ s := by
  have hclock := hI.exec_clock (g := fun s => -(μ s : Int)) (fun hs hu => by
    have := hstep hs hu
    omega) hs hrun
  omega

end System

/-! ## Weights of the local states -/

section Threads
variable {ι σ τ ℓ : Type*} [Fintype ι] [DecidableEq ι] {S : System (Conf ι σ τ) ℓ} {tid : ℓ → ι}
  {f : ℓ → σ → τ → Option (σ × τ)} {I : Conf ι σ τ → Prop} {ls : List ℓ} {c : Conf ι σ τ}

/-- If the code of every thread brings its own weight down, the weights at the start
bound the length of a run. -/
theorem threads_length_le (hS : ∀ l c, S.next l c = c.step (f l) (tid l)) (hI : S.Inductive I)
    {w : τ → Nat}
    (hw : ∀ {c : Conf ι σ τ} {l s t}, I c → f l c.shared (c.threads (tid l)) = some (s, t) →
      w t < w (c.threads (tid l)))
    (h : S.Reaches ls c) : ls.length + total w c.threads ≤ total w S.init.threads := by
  refine hI.length_le (μ := fun c => total w c.threads) ?_ hI.init h
  intro l c c' hc hstep
  rw [hS] at hstep
  have hsum := Conf.total_step w hstep
  have hown := hw hc (Conf.step_mover hstep)
  omega

/-- If the code of every thread brings its own weight down by one, a run has as many
steps as the weights have come down by. -/
theorem threads_length_eq (hS : ∀ l c, S.next l c = c.step (f l) (tid l)) (hI : S.Inductive I)
    {w : τ → Nat}
    (hw : ∀ {c : Conf ι σ τ} {l s t}, I c → f l c.shared (c.threads (tid l)) = some (s, t) →
      w t + 1 = w (c.threads (tid l)))
    (h : S.Reaches ls c) : ls.length + total w c.threads = total w S.init.threads := by
  refine hI.length_eq (μ := fun c => total w c.threads) ?_ hI.init h
  intro l c c' hc hstep
  rw [hS] at hstep
  have hsum := Conf.total_step w hstep
  have hown := hw hc (Conf.step_mover hstep)
  omega

end Threads

end Interleave
