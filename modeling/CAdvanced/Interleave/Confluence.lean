import CAdvanced.Interleave.Termination
import Mathlib.Data.List.Basic

/-!
# Interleave — confluence

Where the moves of different labels do not get in each other's way (`Commutes`), the
scheduler decides about the order of the moves and about nothing else: all runs that come to
an end make the same moves, so one of them tells what holds of all.

* `Commutes.exec_of_stuck` — every run can be continued to the end that one run has found;
* `Commutes.endsWithin` — so every schedule comes to that end, with the same output but for
  its order;
* `Commutes.mem_trace` — and if without showing `a` one run ends that has not shown `b`, no
  run shows `b` that has not shown `a`.
-/

namespace Interleave

namespace System

variable {σ ℓ ω : Type*} {S : System σ ℓ} {I : σ → Prop} {obs : ℓ → σ → Option ω}

/-- Of two labels that can move, each still can when the other has moved, and the order makes
no difference; nor does it to what they show. -/
structure Commutes (S : System σ ℓ) (I : σ → Prop) (obs : ℓ → σ → Option ω) : Prop where
  invariant : S.Inductive I
  step : ∀ {l l' s t t'}, I s → l ≠ l' → S.next l s = some t → S.next l' s = some t' →
    ∃ u, S.next l' t = some u ∧ S.next l t' = some u
  obs : ∀ {l l' s t}, I s → l ≠ l' → S.next l s = some t → obs l' t = obs l' s

section Strip
variable [DecidableEq ℓ]

/-- **One move against a run**: either the run makes it as well, and might have begun with
it, or it can still be made in the end. -/
theorem Commutes.strip (h : S.Commutes I obs) {l : ℓ} {ls : List ℓ} {s s' t : σ} (hs : I s)
    (hl : S.next l s = some s') (hrun : S.exec ls s = some t) :
    (l ∈ ls ∧ S.exec (ls.erase l) s' = some t
        ∧ (S.trace obs ls s).Perm ((obs l s).toList ++ S.trace obs (ls.erase l) s'))
      ∨ ∃ u, S.next l t = some u := by
  induction ls generalizing s s' with
  | nil =>
      cases hrun
      exact .inr ⟨s', hl⟩
  | cons m ls ih =>
      obtain ⟨v, hv, ht⟩ := exec_cons_eq_some.mp hrun
      by_cases hm : m = l
      · subst hm
        cases hl.symm.trans hv
        rw [List.erase_cons_head, trace_cons hl]
        exact .inl ⟨List.mem_cons_self, ht, .refl _⟩
      · obtain ⟨u, hu, hu'⟩ := h.step hs hm hv hl
        rcases ih (h.invariant.step hs hv) hu ht with ⟨hmem, hrest, hperm⟩ | hlate
        · rw [List.erase_cons_tail (by simpa using hm), trace_cons hv, trace_cons hu']
          refine .inl ⟨List.mem_cons_of_mem m hmem, exec_cons_eq_some.mpr ⟨u, hu', hrest⟩, ?_⟩
          rw [h.obs hs hm hv] at hperm
          rw [h.obs hs (Ne.symm hm) hl]
          refine (hperm.append_left (obs m s).toList).trans ?_
          rw [← List.append_assoc, ← List.append_assoc]
          exact List.perm_append_comm.append_right _
        · exact .inr hlate

/-- **Every run can be continued to the end** that one run has found, and they make the same
moves and show the same. -/
theorem Commutes.exec_of_stuck (h : S.Commutes I obs) {ls ls' : List ℓ} {s t t' : σ} (hs : I s)
    (hrun : S.exec ls s = some t) (hstuck : ¬ S.CanMove t) (hrun' : S.exec ls' s = some t') :
    ∃ rest, S.exec rest t' = some t ∧ ls.Perm (ls' ++ rest)
      ∧ (S.trace obs ls s).Perm (S.trace obs ls' s ++ S.trace obs rest t') := by
  induction ls' generalizing ls s with
  | nil =>
      cases hrun'
      exact ⟨ls, hrun, .refl _, .refl _⟩
  | cons l ls' ih =>
      obtain ⟨v, hv, ht'⟩ := exec_cons_eq_some.mp hrun'
      rcases h.strip hs hv hrun with ⟨hmem, hless, hshow⟩ | ⟨u, hu⟩
      · obtain ⟨rest, hrest, hperm, htrace⟩ := ih (h.invariant.step hs hv) hless ht'
        refine ⟨rest, hrest, (List.perm_cons_erase hmem).trans (hperm.cons l), ?_⟩
        rw [trace_cons hv, List.append_assoc]
        exact hshow.trans (htrace.append_left _)
      · exact absurd ⟨l, u, hu⟩ hstuck

/-- **One run for all**: if one run comes to an end, every schedule comes to the same end by
the same moves, and shows the same but for the order. -/
theorem Commutes.endsWithin (h : S.Commutes I obs) {ls : List ℓ} {t : σ} (hrun : S.Reaches ls t)
    (hstuck : ¬ S.CanMove t) :
    S.EndsWithin ls.length fun ls' s => s = t ∧ ls'.Perm ls
      ∧ (S.trace obs ls' S.init).Perm (S.trace obs ls S.init) where
  length_le := by
    intro ls' s hrun'
    obtain ⟨rest, -, hperm, -⟩ := h.exec_of_stuck h.invariant.init hrun hstuck hrun'
    rw [hperm.length_eq, List.length_append]
    exact Nat.le_add_right _ _
  ended := by
    intro ls' s hrun' hstuck'
    obtain ⟨rest, hrest, hperm, htrace⟩ :=
      h.exec_of_stuck h.invariant.init hrun hstuck hrun'
    cases rest with
    | nil =>
        cases hrest
        rw [List.append_nil] at hperm
        rw [trace_nil, List.append_nil] at htrace
        exact ⟨rfl, hperm.symm, htrace.symm⟩
    | cons l rest =>
        obtain ⟨u, hu, -⟩ := exec_cons_eq_some.mp hrest
        exact absurd ⟨l, u, hu⟩ hstuck'

end Strip

/-! ## What comes first -/

/-- The system without the steps `p`. -/
def without (S : System σ ℓ) (p : ℓ → σ → Bool) : System σ ℓ :=
  ⟨S.init, fun l s => if p l s then none else S.next l s⟩

theorem next_without {p : ℓ → σ → Bool} {l : ℓ} {s t : σ} :
    (S.without p).next l s = some t ↔ p l s = false ∧ S.next l s = some t := by
  unfold without
  cases hp : p l s with
  | false => simp [hp]
  | true => simp [hp]

/-- A run that takes none of these steps is one of the system without them. -/
theorem exec_without (obs : ℓ → σ → Option ω) {p : ℓ → σ → Bool} {ls : List ℓ} {s t : σ} (hrun : S.exec ls s = some t)
    (hp : S.tally p ls s = 0) :
    (S.without p).exec ls s = some t ∧ (S.without p).trace obs ls s = S.trace obs ls s := by
  induction ls generalizing s with
  | nil => exact ⟨hrun, rfl⟩
  | cons l ls ih =>
      obtain ⟨u, hu, ht⟩ := exec_cons_eq_some.mp hrun
      rw [tally_cons hu, Nat.add_eq_zero_iff, Bool.toNat_eq_zero] at hp
      obtain ⟨hexec, htrace⟩ := ih ht hp.2
      have hu' := next_without.mpr ⟨hp.1, hu⟩
      rw [trace_cons hu, trace_cons hu', htrace]
      exact ⟨exec_cons_eq_some.mpr ⟨u, hu', hexec⟩, rfl⟩

variable [DecidableEq ω]

/-- The steps that show `a`. -/
def shows (obs : ℓ → σ → Option ω) (a : ω) (l : ℓ) (s : σ) : Bool := obs l s = some a

theorem Commutes.without (h : S.Commutes I obs) (a : ω) :
    (S.without (shows obs a)).Commutes I obs where
  invariant := ⟨h.invariant.init, fun hs hu => h.invariant.step hs (next_without.mp hu).2⟩
  step := by
    intro l l' s t t' hs hne hl hl'
    obtain ⟨hpl, hl⟩ := next_without.mp hl
    obtain ⟨hpl', hl'⟩ := next_without.mp hl'
    obtain ⟨u, hu, hu'⟩ := h.step hs hne hl hl'
    refine ⟨u, next_without.mpr ⟨?_, hu⟩, next_without.mpr ⟨?_, hu'⟩⟩
    · rw [shows, h.obs hs hne hl]
      exact hpl'
    · rw [shows, h.obs hs hne.symm hl']
      exact hpl
  obs hs hne hl := h.obs hs hne (next_without.mp hl).2

/-- **What comes first**: one run that has not shown `a`, and cannot go on without showing it,
tells what no run shows before. -/
theorem Commutes.mem_trace [DecidableEq ℓ] (h : S.Commutes I obs) {a b : ω} {ls : List ℓ} {t : σ}
    (hrun : (S.without (shows obs a)).Reaches ls t)
    (hstuck : ¬ (S.without (shows obs a)).CanMove t)
    (hb : b ∉ (S.without (shows obs a)).trace obs ls S.init) {ls' : List ℓ} {t' : σ}
    (hrun' : S.Reaches ls' t') (hb' : b ∈ S.trace obs ls' S.init) :
    a ∈ S.trace obs ls' S.init := by
  by_contra ha
  have hgood : ∀ o ∈ S.trace obs ls' S.init, o ≠ a := fun o ho hoa => ha (hoa ▸ ho)
  have hshows : ∀ l s, shows obs a l s = false ↔ ∀ o, obs l s = some o → o ≠ a := by
    intro l s
    rw [shows, decide_eq_false_iff_not]
    exact ⟨fun hne o ho hoa => hne (hoa ▸ ho), fun hall ho => hall a ho rfl⟩
  have hnone : S.tally (shows obs a) ls' S.init = 0 :=
    (tally_eq_zero_iff_forall hshows hrun').mpr hgood
  obtain ⟨hexec, htrace⟩ := exec_without obs hrun' hnone
  obtain ⟨rest, -, -, hperm⟩ :=
    (h.without a).exec_of_stuck h.invariant.init hrun hstuck hexec
  exact hb (hperm.mem_iff.mpr (List.mem_append_left _ (htrace ▸ hb')))

omit [DecidableEq ω] in
/-- What a run shows it shows at some step. -/
theorem exists_of_trace_eq {ls : List ℓ} {s t : σ} {o : ω} {pre post : List ω}
    (hrun : S.exec ls s = some t) (h : S.trace obs ls s = pre ++ o :: post) :
    ∃ ls' u, S.exec ls' s = some u ∧ S.trace obs ls' s = pre ++ [o] := by
  induction ls generalizing s pre with
  | nil => exact absurd h (by simp)
  | cons l ls ih =>
      obtain ⟨u, hu, ht⟩ := exec_cons_eq_some.mp hrun
      rw [trace_cons hu] at h
      cases hobs : obs l s with
      | none =>
          rw [hobs] at h
          obtain ⟨ls', v, hv, htrace⟩ := ih ht h
          refine ⟨l :: ls', v, exec_cons_eq_some.mpr ⟨u, hu, hv⟩, ?_⟩
          rw [trace_cons hu, hobs, htrace]
          rfl
      | some o' =>
          rw [hobs] at h
          cases pre with
          | nil =>
              obtain ⟨rfl, -⟩ := List.cons.inj h
              refine ⟨[l], u, exec_singleton.trans hu, ?_⟩
              rw [trace_cons hu, hobs]
              rfl
          | cons p pre =>
              obtain ⟨rfl, hrest⟩ := List.cons.inj h
              obtain ⟨ls', v, hv, htrace⟩ := ih ht hrest
              refine ⟨l :: ls', v, exec_cons_eq_some.mpr ⟨u, hu, hv⟩, ?_⟩
              rw [trace_cons hu, hobs, htrace]
              rfl

/-- **The order of the output**: what no run shows first stands behind the other. -/
theorem Commutes.idxOf_lt [DecidableEq ℓ] (h : S.Commutes I obs) {a b : ω} (hab : a ≠ b)
    {ls : List ℓ} {t : σ} (hrun : (S.without (shows obs a)).Reaches ls t)
    (hstuck : ¬ (S.without (shows obs a)).CanMove t)
    (hb : b ∉ (S.without (shows obs a)).trace obs ls S.init) {ls' : List ℓ} {t' : σ}
    (hrun' : S.Reaches ls' t') (hb' : b ∈ S.trace obs ls' S.init) :
    (S.trace obs ls' S.init).idxOf a < (S.trace obs ls' S.init).idxOf b := by
  obtain ⟨pre, post, heq, hpre⟩ := List.eq_append_cons_of_mem hb'
  obtain ⟨ls₁, u, hu, htrace⟩ := exists_of_trace_eq hrun' heq
  have ha := h.mem_trace hrun hstuck hb hu (htrace ▸ List.mem_append_right pre (by simp))
  rw [htrace] at ha
  have ha : a ∈ pre := (List.mem_append.mp ha).resolve_right fun hmem =>
    hab (List.mem_singleton.mp hmem)
  rw [heq, List.idxOf_append_of_mem ha, List.idxOf_append_of_notMem hpre, List.idxOf_cons_self]
  exact List.idxOf_lt_length_of_mem ha

/-! ## One run that ends -/

omit [DecidableEq ω] in
/-- A run ends where none of the labels can move. -/
theorem exists_stuck [Fintype ℓ] (ls : List ℓ)
    (h : (S.exec ls S.init).any (fun t => decide (∀ l, (S.next l t).isNone)) = true) :
    ∃ t, S.Reaches ls t ∧ ¬ S.CanMove t := by
  obtain ⟨t, ht, hend⟩ := (Option.any_eq_true _ _).mp h
  refine ⟨t, ht, ?_⟩
  rintro ⟨l, u, hu⟩
  have hl := of_decide_eq_true hend l
  rw [hu] at hl
  cases hl

end System
end Interleave
