import CAdvanced.Interleave.Threads
import Mathlib.Data.List.Iterate
import Mathlib.Data.List.Perm.Basic

/-!
# Interleave — numbers handed out one by one

A counter gives out its values, threads hold them for a while, and hand them on. What has
been handed on, once nobody holds anything, is what has been given out, in some order
(`tickets_perm`, from `tally_eq_of_books`); and what a counter gives out is the sequence of
its values (`trace_iterate`).

Two rules for runs that keep off some steps go before that: such a run is a run of the
system without these steps (`avoiding`), and a bound on what is still to come keeps off the
steps that would exceed it (`tally_eq_zero_of_budget`).
-/

namespace Interleave.System

variable {σ ℓ ω κ : Type*} {S : System σ ℓ}

/-! ## Runs that keep off some steps -/

/-- The system without its `q` steps. -/
def avoiding (S : System σ ℓ) (q : ℓ → σ → Bool) : System σ ℓ :=
  ⟨S.init, fun l s => if q l s then none else S.next l s⟩

theorem avoiding_next {q : ℓ → σ → Bool} {l : ℓ} {s t : σ} :
    (S.avoiding q).next l s = some t ↔ q l s = false ∧ S.next l s = some t := by
  cases hq : q l s <;> simp [avoiding, hq]

/-- The first step of a run without `q` steps, and the rest. -/
theorem exec_cons_avoiding {q : ℓ → σ → Bool} {l : ℓ} {ls : List ℓ} {s t : σ}
    (hrun : S.exec (l :: ls) s = some t) (hq : S.tally q (l :: ls) s = 0) :
    ∃ u, S.next l s = some u ∧ (S.avoiding q).next l s = some u ∧ S.exec ls u = some t
      ∧ S.tally q ls u = 0 := by
  obtain ⟨u, hu, ht⟩ := exec_cons_eq_some.mp hrun
  rw [tally_cons hu, Nat.add_eq_zero_iff, Bool.toNat_eq_zero] at hq
  exact ⟨u, hu, avoiding_next.mpr ⟨hq.1, hu⟩, ht, hq.2⟩

/-- **A run without `q` steps** is a run of the system that avoids them. -/
theorem exec_avoiding {q : ℓ → σ → Bool} {ls : List ℓ} {s t : σ} (hrun : S.exec ls s = some t)
    (hq : S.tally q ls s = 0) : (S.avoiding q).exec ls s = some t := by
  induction ls generalizing s with
  | nil => exact hrun
  | cons l ls ih =>
      obtain ⟨u, -, hu, ht, hrest⟩ := exec_cons_avoiding hrun hq
      exact exec_cons_eq_some.mpr ⟨u, hu, ih ht hrest⟩

/-- It shows the same there. -/
theorem trace_avoiding {q : ℓ → σ → Bool} (obs : ℓ → σ → Option ω) {ls : List ℓ} {s t : σ}
    (hrun : S.exec ls s = some t) (hq : S.tally q ls s = 0) :
    (S.avoiding q).trace obs ls s = S.trace obs ls s := by
  induction ls generalizing s with
  | nil => rfl
  | cons l ls ih =>
      obtain ⟨u, hu, hu', ht, hrest⟩ := exec_cons_avoiding hrun hq
      rw [trace_cons hu, trace_cons hu', ih ht hrest]

theorem tally_avoiding {q : ℓ → σ → Bool} (p : ℓ → σ → Bool) {ls : List ℓ} {s t : σ}
    (hrun : S.exec ls s = some t) (hq : S.tally q ls s = 0) :
    (S.avoiding q).tally p ls s = S.tally p ls s := by
  induction ls generalizing s with
  | nil => rfl
  | cons l ls ih =>
      obtain ⟨u, hu, hu', ht, hrest⟩ := exec_cons_avoiding hrun hq
      rw [tally_cons hu, tally_cons hu', ih ht hrest]

/-- **The rule of the remaining steps**: `I n s` says that `s` is good with `n` more `p`
steps to come. If that excludes a `q` step now, and is kept, there is no `q` step. -/
theorem tally_eq_zero_of_budget {I : Nat → σ → Prop} {p q : ℓ → σ → Bool}
    (hstep : ∀ {n l s t}, I (n + (p l s).toNat) s → S.next l s = some t → q l s = false ∧ I n t)
    {ls : List ℓ} {s t : σ} (hs : I (S.tally p ls s) s) (hrun : S.exec ls s = some t) :
    S.tally q ls s = 0 := by
  induction ls generalizing s with
  | nil => rfl
  | cons l ls ih =>
      obtain ⟨u, hu, ht⟩ := exec_cons_eq_some.mp hrun
      rw [tally_cons hu, Nat.add_comm] at hs
      obtain ⟨hq, hI⟩ := hstep hs hu
      rw [tally_cons hu, hq, ih hI ht]
      rfl

/-! ## What a run shows -/

theorem trace_map (obs : ℓ → σ → Option ω) (f : ω → κ) (ls : List ℓ) (s : σ) :
    (S.trace obs ls s).map f = S.trace (fun l s => (obs l s).map f) ls s := by
  simp only [Option.map_eq_bind]
  rw [← List.filterMap_eq_map, trace_filterMap]

theorem length_trace (obs : ℓ → σ → Option ω) (ls : List ℓ) (s : σ) :
    (S.trace obs ls s).length = S.tally (fun l s => (obs l s).isSome) ls s := by
  induction ls generalizing s with
  | nil => rfl
  | cons l ls ih =>
      simp only [trace, tally]
      split
      · rfl
      · rw [List.length_append, ih]
        cases obs l s <;> rfl

theorem count_trace [DecidableEq ω] (obs : ℓ → σ → Option ω) (o : ω) (ls : List ℓ) (s : σ) :
    (S.trace obs ls s).count o = S.tally (fun l s => obs l s = some o) ls s := by
  induction ls generalizing s with
  | nil => rfl
  | cons l ls ih =>
      simp only [trace, tally]
      split
      · rfl
      · rw [List.count_append, ih]
        cases obs l s with
        | none => rfl
        | some x => by_cases h : x = o <;> simp [h]

/-- **A counter gives out its values**: if a step shows the successor `f` of the value, which
becomes the value, or shows nothing and keeps it, a run shows the successors in turn. -/
theorem trace_iterate {I : σ → Prop} (hI : S.Inductive I) {v : σ → ω} {f : ω → ω}
    {o : ℓ → σ → Option ω}
    (hstep : ∀ {l s t}, I s → S.next l s = some t →
      o l s = none ∧ v t = v s ∨ o l s = some (f (v s)) ∧ v t = f (v s))
    {ls : List ℓ} {s t : σ} (hs : I s) (hrun : S.exec ls s = some t) :
    S.trace o ls s = List.iterate f (f (v s)) (S.trace o ls s).length
      ∧ v t = f^[(S.trace o ls s).length] (v s) := by
  induction ls generalizing s with
  | nil =>
      cases hrun
      exact ⟨rfl, rfl⟩
  | cons l ls ih =>
      obtain ⟨u, hu, ht⟩ := exec_cons_eq_some.mp hrun
      obtain ⟨hrest, hvalue⟩ := ih (hI.step hs hu) ht
      rw [trace_cons hu]
      rcases hstep hs hu with ⟨hnone, hkeep⟩ | ⟨hsome, hnext⟩
      · rw [hkeep] at hrest hvalue
        rw [hnone]
        exact ⟨hrest, hvalue⟩
      · rw [hnext] at hrest hvalue
        rw [hsome, Option.toList_some, List.singleton_append, List.length_cons]
        refine ⟨?_, hvalue⟩
        rw [List.iterate, ← hrest]

end Interleave.System

namespace Interleave

variable {ι σ τ ℓ α : Type*} [DecidableEq ι] [Fintype ι]

/-- **As many come as go**: if the mover of a step weighs one more for a `q` step and one less
for a `p` step, a run has as many of them when nobody weighs anything before and after it. -/
theorem tally_eq_of_books {S : System (Conf ι σ τ) ℓ} {m : ℓ → ι} {f : ℓ → σ → τ → Option (σ × τ)}
    (hS : ∀ {l c c'}, S.next l c = some c' → c.step (f l) (m l) = some c')
    {I : Conf ι σ τ → Prop} (hI : S.Inductive I) {p q : ℓ → Conf ι σ τ → Bool} {w : τ → Nat}
    (hstep : ∀ {l c c'}, I c → S.next l c = some c' →
      w (c'.threads (m l)) + (p l c).toNat = w (c.threads (m l)) + (q l c).toNat)
    {ls : List ℓ} {c c' : Conf ι σ τ} (hc : I c) (hrun : S.exec ls c = some c')
    (hnone : ∀ i, w (c.threads i) = 0) (hdone : ∀ i, w (c'.threads i) = 0) :
    S.tally p ls c = S.tally q ls c := by
  have hledger : (total w c'.threads : Int) + S.tally p ls c
      = total w c.threads + S.tally q ls c := by
    refine System.exec_ledger hI (g := fun c => (total w c.threads : Int)) ?_ hc hrun
    intro l c c' hc hnext
    have hmover := hstep hc hnext
    have htotal := Conf.total_step w (hS hnext)
    omega
  rw [total_eq_zero hdone, total_eq_zero hnone] at hledger
  omega

variable [DecidableEq α]

/-- How often a thread holds the number `a`. -/
def holding {τ α : Type*} [DecidableEq α] (w : τ → Option α) (a : α) (t : τ) : Nat :=
  (w t).toList.count a

/-- **No number is lost or made up**: if the mover of a step hands on what it held (`w`), or
holds on to it, and holds what is given out, all that has been given out has been handed on when
nobody holds anything. -/
theorem tickets_perm {S : System (Conf ι σ τ) ℓ} {m : ℓ → ι} {f : ℓ → σ → τ → Option (σ × τ)}
    (hS : ∀ {l c c'}, S.next l c = some c' → c.step (f l) (m l) = some c')
    {I : Conf ι σ τ → Prop} (hI : S.Inductive I) {issue give : ℓ → Conf ι σ τ → Option α}
    {w : τ → Option α}
    (hstep : ∀ {l c c'}, I c → S.next l c = some c' →
      ((w (c'.threads (m l))).toList ++ (give l c).toList).Perm
        ((w (c.threads (m l))).toList ++ (issue l c).toList))
    {ls : List ℓ} {c c' : Conf ι σ τ} (hc : I c) (hrun : S.exec ls c = some c')
    (hnone : ∀ i, w (c.threads i) = none) (hdone : ∀ i, w (c'.threads i) = none) :
    (S.trace give ls c).Perm (S.trace issue ls c) := by
  rw [List.perm_iff_count]
  intro a
  have hone : ∀ o : Option α, o.toList.count a = (decide (o = some a)).toNat := by
    intro o
    cases o with
    | none => rfl
    | some x => by_cases h : x = a <;> simp [h]
  have hzero : ∀ {t : τ}, w t = none → holding w a t = 0 := by
    intro t ht
    rw [holding, ht]
    rfl
  rw [System.count_trace, System.count_trace]
  refine tally_eq_of_books hS hI (w := holding w a) ?_ hc hrun
    (fun i => hzero (hnone i)) (fun i => hzero (hdone i))
  intro l c c' hc hnext
  have hcount := (hstep hc hnext).count_eq a
  rw [List.count_append, List.count_append, hone (give l c), hone (issue l c)] at hcount
  exact hcount

end Interleave
