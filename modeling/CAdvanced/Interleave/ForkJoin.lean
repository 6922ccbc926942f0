import CAdvanced.Interleave.Termination

/-!
# Interleave — parents and children

A parent that creates its children one after the other, joins them in the same order, and
then goes on by itself. Children that are not yet created do not move, and nothing else
distinguishes them: so a run of the family is a run of the children, as if all of them had
been there from the start, and a run of the parent alone behind it.

* `Family.run` — every run of the family, taken apart like that;
* `Family.endsWithin` — if the children come to an end, and the parent does from there on,
  then the family does;
* `endsWithin_alone` — one who is alone ends as its only run does.
-/

namespace Interleave

open Interleave.System

/-- Where a parent of `n` children stands. -/
inductive Parent (n : Nat) (μ : Type*) where
  | forCreate (k : Nat)
  | create (k : Fin n)
  | forJoin (k : Nat)
  | join (k : Fin n)
  | tail (m : μ)

namespace Parent
variable {n : Nat} {μ : Type*}

/-- How many children have been created. -/
def created : Parent n μ → Nat
  | .forCreate k => k
  | .create k => k
  | _ => n

/-- How many children have been joined. -/
def joined : Parent n μ → Nat
  | .forCreate _ | .create _ => 0
  | .forJoin k => k
  | .join k => k
  | .tail _ => n

/-- The steps of the two loops up to a point. -/
def steps : Parent n μ → Nat
  | .forCreate k => 2 * k
  | .create k => 2 * k + 1
  | .forJoin k => 2 * n + 1 + 2 * k
  | .join k => 2 * n + 2 + 2 * k
  | .tail _ => 4 * n + 2

end Parent

/-- A family: the children with their code, in the order in which they are created, how to
see that one has returned, and what the parent does after it has joined them. -/
structure Family (ι σ τ ℓ μ : Type*) (n : Nat) where
  children : System (Conf ι σ τ) ℓ
  tid : ℓ → ι
  order : Fin n ≃ ι
  returned : τ → Bool
  tail : σ → μ → Option (σ × μ)
  start : μ

variable {ι σ τ ℓ μ : Type*} {n : Nat}

/-- The children, and where the parent stands. -/
structure FamilyState (ι σ τ μ : Type*) (n : Nat) where
  conf : Conf ι σ τ
  parent : Parent n μ

namespace Family
variable (F : Family ι σ τ ℓ μ n)

/-- One step of the parent. -/
def parentStep (s : FamilyState ι σ τ μ n) : Parent n μ → Option (FamilyState ι σ τ μ n)
  | .forCreate k => some { s with parent := if h : k < n then .create ⟨k, h⟩ else .forJoin 0 }
  | .create k => some { s with parent := .forCreate (k + 1) }
  | .forJoin k =>
      some { s with parent := if h : k < n then .join ⟨k, h⟩ else .tail F.start }
  | .join k =>
      if F.returned (s.conf.threads (F.order k)) = true then
        some { s with parent := .forJoin (k + 1) }
      else none
  | .tail m => (F.tail s.conf.shared m).map fun r => ⟨⟨r.1, s.conf.threads⟩, .tail r.2⟩

/-- A parent whose tail changes nothing changes nothing. -/
theorem parentStep_conf {F : Family ι σ τ ℓ μ n} {s t : FamilyState ι σ τ μ n}
    (htail : ∀ {x m r}, F.tail x m = some r → r.1 = x) (h : F.parentStep s s.parent = some t) :
    t.conf = s.conf := by
  obtain ⟨conf, p⟩ := s
  cases p with
  | forCreate k | create k | forJoin k =>
      cases h
      rfl
  | join k =>
      obtain ⟨-, h⟩ := Option.ite_none_right_eq_some.mp h
      cases h
      rfl
  | tail m =>
      obtain ⟨r, hr, rfl⟩ := Option.map_eq_some_iff.mp h
      show Conf.mk r.1 conf.threads = conf
      rw [htail hr]

/-- One step, of the parent or of a child that has been created. -/
def next : Option ℓ → FamilyState ι σ τ μ n → Option (FamilyState ι σ τ μ n)
  | none, s => F.parentStep s s.parent
  | some l, s =>
      if (F.order.symm (F.tid l)).val < s.parent.created then
        (F.children.next l s.conf).map fun c => { s with conf := c }
      else none

/-- The parent at the first test of its first loop. -/
def system : System (FamilyState ι σ τ μ n) (Option ℓ) := ⟨⟨F.children.init, .forCreate 0⟩, F.next⟩

/-- The parent alone, from its tail on. -/
def tailSystem (s : σ) : System (σ × μ) Unit := ⟨(s, F.start), fun _ x => F.tail x.1 x.2⟩

/-- The children are threads, and who has returned does not move any more. -/
structure Proper (f : ℓ → σ → τ → Option (σ × τ)) [DecidableEq ι] : Prop where
  code : ∀ l c, F.children.next l c = c.step (f l) (F.tid l)
  ends : ∀ l s t, F.returned t = true → f l s t = none

/-- **A run, taken apart**: the children have had the run `ls₀` to `c₀`, and the parent alone
has had `ls₁` from there. -/
structure Split (ls : List (Option ℓ)) (s : FamilyState ι σ τ μ n) (ls₀ : List ℓ)
    (c₀ : Conf ι σ τ) (ls₁ : List Unit) : Prop where
  children : F.children.Reaches ls₀ c₀
  threads : s.conf.threads = c₀.threads
  tail : ∀ m, s.parent = .tail m → (F.tailSystem c₀.shared).Reaches ls₁ (s.conf.shared, m)
  before : (∀ m, s.parent ≠ .tail m) → s.conf.shared = c₀.shared ∧ ls₁ = []
  joined : ∀ k : Fin n, k.val < s.parent.joined → F.returned (s.conf.threads (F.order k)) = true
  le : s.parent.created ≤ n ∧ s.parent.joined ≤ n
  length : ls.length = ls₀.length + s.parent.steps + ls₁.length

variable {F} [DecidableEq ι] {f : ℓ → σ → τ → Option (σ × τ)} {ls : List (Option ℓ)}
  {s t : FamilyState ι σ τ μ n} {ls₀ : List ℓ} {c₀ : Conf ι σ τ} {ls₁ : List Unit}

omit [DecidableEq ι] in
/-- Before its tail the parent has changed nothing. -/
theorem Split.conf_eq (h : F.Split ls s ls₀ c₀ ls₁) (hbefore : ∀ m, s.parent ≠ .tail m) :
    s.conf = c₀ := by
  have hshared := (h.before hbefore).1
  have hthreads := h.threads
  obtain ⟨⟨shared, threads⟩, p⟩ := s
  obtain ⟨shared₀, threads₀⟩ := c₀
  rw [Conf.mk.injEq]
  exact ⟨hshared, hthreads⟩

omit [DecidableEq ι] in
/-- A step of the parent before its tail. -/
theorem Split.parent (h : F.Split ls s ls₀ c₀ ls₁) {p : Parent n μ}
    (hbefore : ∀ m, s.parent ≠ .tail m)
    (htail : ∀ m, p = .tail m → m = F.start)
    (hjoined : ∀ k : Fin n, k.val < p.joined → k.val < s.parent.joined
      ∨ F.returned (s.conf.threads (F.order k)) = true)
    (hle : p.created ≤ n ∧ p.joined ≤ n) (hsteps : p.steps = s.parent.steps + 1) :
    F.Split (ls ++ [none]) ⟨s.conf, p⟩ ls₀ c₀ ls₁ := by
  obtain ⟨hshared, rfl⟩ := h.before hbefore
  refine ⟨h.children, h.threads, fun m hm => ?_, fun _ => ⟨hshared, rfl⟩, fun k hk => ?_, hle, ?_⟩
  · rw [htail m hm]
    show some (c₀.shared, F.start) = some (s.conf.shared, F.start)
    rw [hshared]
  · exact (hjoined k hk).elim (h.joined k) id
  · have := h.length
    simp only [List.length_append, List.length_singleton, List.length_nil, hsteps] at this ⊢
    omega

/-- **One step** of the family is one step of the children or of the parent. -/
theorem Split.step (hF : F.Proper f) (h : F.Split ls s ls₀ c₀ ls₁) {l : Option ℓ}
    (hstep : F.next l s = some t) :
    ∃ ls₀' c₀' ls₁', F.Split (ls ++ [l]) t ls₀' c₀' ls₁' := by
  have hlen := h.length
  cases l with
  | some l =>
      simp only [next, Option.ite_none_right_eq_some, Option.map_eq_some_iff] at hstep
      obtain ⟨hcreated, c, hc, rfl⟩ := hstep
      rw [hF.code] at hc
      have hmover := Conf.step_mover hc
      -- who moves has not returned, so the parent is not at its tail
      have hgoing : ∀ k : Fin n, k.val < s.parent.joined → F.order k ≠ F.tid l := by
        intro k hk hat
        have hreturned := h.joined k hk
        rw [hat] at hreturned
        rw [hF.ends l _ _ hreturned] at hmover
        cases hmover
      have hbefore : ∀ m, s.parent ≠ .tail m := by
        intro m hm
        refine hgoing (F.order.symm (F.tid l)) ?_ (F.order.apply_symm_apply _)
        rw [hm]
        exact (F.order.symm (F.tid l)).isLt
      have hsame := h.conf_eq hbefore
      obtain ⟨-, rfl⟩ := h.before hbefore
      refine ⟨ls₀ ++ [l], c, [], exec_append_eq_some.mpr ⟨c₀, h.children, ?_⟩, rfl,
        fun m hm => absurd hm (hbefore m), fun _ => ⟨rfl, rfl⟩, fun k hk => ?_, h.le, ?_⟩
      · rw [exec_singleton, hF.code, ← hsame]
        exact hc
      · show F.returned (c.threads (F.order k)) = true
        rw [Conf.step_threads_ne hc (hgoing k hk)]
        exact h.joined k hk
      · simp only [List.length_append, List.length_singleton, List.length_nil] at hlen ⊢
        omega
  | none =>
      obtain ⟨conf, p⟩ := s
      have hle := h.le
      cases p with
      | forCreate k =>
          cases hstep
          refine ⟨ls₀, c₀, ls₁, h.parent (fun m hm => by cases hm) ?_ ?_ ?_ ?_⟩
          · intro m hm
            split at hm <;> cases hm
          · intro j hj
            split at hj <;> exact absurd hj (Nat.not_lt_zero _)
          · split
            · exact ⟨hle.1, Nat.zero_le n⟩
            · exact ⟨le_refl n, Nat.zero_le n⟩
          · have hk : k ≤ n := hle.1
            split
            · rfl
            · simp only [Parent.steps]
              omega
      | create k =>
          cases hstep
          refine ⟨ls₀, c₀, ls₁, h.parent (fun m hm => by cases hm) (fun m hm => by cases hm)
            (fun j hj => absurd hj (Nat.not_lt_zero _)) ⟨k.isLt, Nat.zero_le n⟩ ?_⟩
          simp only [Parent.steps]
          omega
      | forJoin k =>
          cases hstep
          refine ⟨ls₀, c₀, ls₁, h.parent (fun m hm => by cases hm) ?_ ?_ ?_ ?_⟩
          · intro m hm
            split at hm <;> cases hm
            rfl
          · intro j hj
            left
            split at hj
            case isTrue => exact hj
            case isFalse hk => exact lt_of_lt_of_le j.isLt (Nat.not_lt.mp hk)
          · split
            · exact hle
            · exact ⟨le_refl n, le_refl n⟩
          · have hk : k ≤ n := hle.2
            split
            · simp only [Parent.steps]
              omega
            · simp only [Parent.steps]
              omega
      | join k =>
          simp only [next, parentStep, Option.ite_none_right_eq_some, Option.some.injEq] at hstep
          obtain ⟨hreturned, rfl⟩ := hstep
          refine ⟨ls₀, c₀, ls₁, h.parent (fun m hm => by cases hm) (fun m hm => by cases hm) ?_
            ⟨le_refl n, k.isLt⟩ ?_⟩
          · intro j hj
            rcases Nat.lt_succ_iff_lt_or_eq.mp hj with hlt | heq
            · exact .inl hlt
            · right
              rw [Fin.ext heq]
              exact hreturned
          · simp only [Parent.steps]
            omega
      | tail m =>
          simp only [next, parentStep, Option.map_eq_some_iff] at hstep
          obtain ⟨r, hr, rfl⟩ := hstep
          refine ⟨ls₀, c₀, ls₁ ++ [()], h.children, h.threads, fun m' hm' => ?_,
            fun hnot => absurd rfl (hnot r.2), h.joined, hle, ?_⟩
          · cases hm'
            exact exec_append_eq_some.mpr ⟨_, h.tail m rfl, exec_singleton.trans hr⟩
          · simp only [List.length_append, List.length_singleton, Parent.steps] at hlen ⊢
            omega

/-- **Every run of the family** is one of its children and one of the parent alone. -/
theorem run (hF : F.Proper f) (h : F.system.Reaches ls s) :
    ∃ ls₀ c₀ ls₁, F.Split ls s ls₀ c₀ ls₁ := by
  refine Reaches.induction (Q := fun ls s => ∃ ls₀ c₀ ls₁, F.Split ls s ls₀ c₀ ls₁) ?_ ?_ h
  · exact ⟨[], F.children.init, [], rfl, rfl, (fun m hm => by cases hm), fun _ => ⟨rfl, rfl⟩,
      fun k hk => absurd hk (Nat.not_lt_zero _), ⟨Nat.zero_le n, Nat.zero_le n⟩, rfl⟩
  · rintro ls s l t - ⟨ls₀, c₀, ls₁, hsplit⟩ hstep
    exact hsplit.step hF hstep

/-- At its tail the parent has joined all children, and none of them can move. -/
theorem Split.over (hF : F.Proper f) (h : F.Split ls s ls₀ c₀ ls₁) {m : μ}
    (hm : s.parent = .tail m) : ¬ F.children.CanMove c₀ := by
  rintro ⟨l, c, hc⟩
  rw [hF.code] at hc
  have hmover := Conf.step_mover hc
  have hreturned := h.joined (F.order.symm (F.tid l)) (by rw [hm]; exact Fin.isLt _)
  rw [F.order.apply_symm_apply, h.threads] at hreturned
  rw [hF.ends l _ _ hreturned] at hmover
  cases hmover

/-- **A family ends** if its children end, all returned, and the parent does from there. -/
theorem endsWithin (hF : F.Proper f) {N K : Nat} {P : List ℓ → Conf ι σ τ → Prop}
    {Q : Conf ι σ τ → List Unit → σ × μ → Prop} (hchildren : F.children.EndsWithin N P)
    (hreturned : ∀ {ls c}, P ls c → ∀ i, F.returned (c.threads i) = true)
    (htail : ∀ {ls c}, P ls c → (F.tailSystem c.shared).EndsWithin K (Q c)) :
    F.system.EndsWithin (N + (4 * n + 2) + K) fun ls s => ∃ ls₀ c₀ ls₁ m,
      s.parent = .tail m ∧ s.conf.threads = c₀.threads ∧ P ls₀ c₀
      ∧ Q c₀ ls₁ (s.conf.shared, m) ∧ ls.length = ls₀.length + (4 * n + 2) + ls₁.length where
  length_le := by
    intro ls s hrun
    obtain ⟨ls₀, c₀, ls₁, h⟩ := run hF hrun
    have hlen := h.length
    have hle₀ := hchildren.length_le h.children
    obtain ⟨hcreated, hjoined⟩ := h.le
    cases hp : s.parent with
    | tail m =>
        have hP := hchildren.ended h.children (h.over hF hp)
        have hle₁ := (htail hP).length_le (h.tail m hp)
        rw [hp] at hlen
        simp only [Parent.steps] at hlen
        omega
    | _ =>
        obtain ⟨-, rfl⟩ := h.before fun m hm => by rw [hp] at hm; cases hm
        rw [hp] at hlen hcreated hjoined
        simp only [Parent.steps, Parent.created, Parent.joined, List.length_nil] at *
        omega
  ended := by
    intro ls s hrun hstuck
    obtain ⟨ls₀, c₀, ls₁, h⟩ := run hF hrun
    have hmoves : (F.parentStep s s.parent).isSome = false := by
      rw [Bool.eq_false_iff]
      intro hsome
      obtain ⟨t, ht⟩ := Option.isSome_iff_exists.mp hsome
      exact hstuck ⟨none, t, ht⟩
    cases hp : s.parent with
    | forCreate k | create k | forJoin k =>
        rw [hp] at hmoves
        cases hmoves
    | join k =>
        have hconf := h.conf_eq fun m hm => by rw [hp] at hm; cases hm
        -- all children have been created, so they are over as well
        have hover : ¬ F.children.CanMove c₀ := by
          rintro ⟨l, c, hc⟩
          refine hstuck ⟨some l, ⟨c, s.parent⟩, ?_⟩
          rw [← hconf] at hc
          show F.next (some l) s = _
          rw [next, if_pos (by rw [hp]; exact Fin.isLt _), hc]
          rfl
        have hback := hreturned (hchildren.ended h.children hover) (F.order k)
        rw [hp, parentStep, h.threads, if_pos hback] at hmoves
        cases hmoves
    | tail m =>
        have hP := hchildren.ended h.children (h.over hF hp)
        refine ⟨ls₀, c₀, ls₁, m, rfl, h.threads, hP, (htail hP).ended (h.tail m hp) ?_, ?_⟩
        · rintro ⟨_, x, hx⟩
          rw [hp, parentStep, Option.isSome_map, show F.tail s.conf.shared m = some x from hx]
            at hmoves
          cases hmoves
        · have hlen := h.length
          rwa [hp] at hlen

end Family

/-! ## One alone -/

/-- **One who is alone** takes the steps of its only run, and ends where that ends. -/
theorem endsWithin_alone {S : System σ Unit} {k : Nat} {x : σ}
    (h : S.Reaches (List.replicate k ()) x) (hend : S.next () x = none) :
    S.EndsWithin k fun ls y => ls.length = k ∧ y = x := by
  have hunit : ∀ ls : List Unit, ls = List.replicate ls.length () := fun ls =>
    List.eq_replicate_of_mem fun _ _ => rfl
  have hle : ∀ {ls : List Unit} {y : σ}, S.Reaches ls y → ls.length ≤ k := by
    intro ls y hrun
    by_contra hlong
    rw [hunit ls, show ls.length = k + 1 + (ls.length - k - 1) by omega, ← List.replicate_append_replicate,
      List.replicate_succ'] at hrun
    obtain ⟨z, hz, -⟩ := exec_append_eq_some.mp hrun
    obtain ⟨u, hu, hstep⟩ := exec_append_eq_some.mp hz
    cases h.symm.trans hu
    cases hend.symm.trans (exec_singleton.symm.trans hstep)
  refine ⟨hle, fun {ls y} hrun hstuck => ?_⟩
  have hlen := hle hrun
  rw [Reaches, show k = ls.length + (k - ls.length) by omega, ← List.replicate_append_replicate,
    ← hunit ls] at h
  obtain ⟨u, hu, hrest⟩ := exec_append_eq_some.mp h
  cases hrun.symm.trans hu
  cases hleft : k - ls.length with
  | zero =>
      rw [hleft] at hrest
      cases hrest
      exact ⟨by omega, rfl⟩
  | succ j =>
      rw [hleft, List.replicate_succ] at hrest
      obtain ⟨u, hu, -⟩ := exec_cons_eq_some.mp hrest
      exact absurd ⟨(), u, hu⟩ hstuck

end Interleave
