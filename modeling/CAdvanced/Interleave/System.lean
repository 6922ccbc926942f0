import Mathlib.Data.List.Basic
import Mathlib.Algebra.Group.Basic
import Mathlib.Algebra.Ring.Int.Defs

/-!
# Interleave — systems and their runs

A labelled transition system whose step is a partial FUNCTION of the label:
`next l s = none` says that `l` cannot move in `s` (a thread blocked in a
wait, a choice that is not offered). All nondeterminism sits in the label,
so a schedule is a list of labels and a run is executed by `exec`.

The rules a verification uses, each proved once here:

* `Inductive.exec` / `Inductive.reachable` — an inductive invariant holds in
  every state of every run;
* `exec_ledger` — a quantity that every step moves by the step's own entry
  has moved, over a run, by the sum of the entries (`tally`);
* `exec_sum` / `exec_foldl` — the same with what a run shows (`trace`), by sum or by fold;
* `trace_balance` — the same for a list that runs fill at one end and empty at
  the other;
* `exec_of_tally_eq_zero` / `exec_of_tally_ne_zero` — what all steps but some keep
  is kept until the first of those, and what these establish holds from then on;
* `tally_eq_zero_iff` — a run shows only what it should iff it avoids certain
  steps;
* `throughout_iff` — a run stays in good states (`Throughout`) iff it avoids the
  steps that leave them;
* `tally_le_of_budget` — a budget that every counted step pays for bounds
  how often a run takes such a step (the shape of a bypass bound);
* `Simulation.exec` — forward simulation: what a run shows (`trace`) is a
  run of the abstract system.
-/

namespace Interleave

/-- A transition system: one start state, and the step of each label. -/
structure System (σ ℓ : Type*) where
  init : σ
  next : ℓ → σ → Option σ

namespace System

variable {σ ℓ ω τ κ : Type*} (S : System σ ℓ)

/-- Executes a schedule; `none` as soon as one of its labels cannot move. -/
def exec : List ℓ → σ → Option σ
  | [], s => some s
  | l :: ls, s => (S.next l s).bind (exec ls)

/-- `s` is where the schedule `ls` leads from the start. -/
def Reaches (ls : List ℓ) (s : σ) : Prop := S.exec ls S.init = some s

/-- `s` lies on some run from the start. -/
def Reachable (s : σ) : Prop := ∃ ls, S.Reaches ls s

/-- Some label moves in `s`. -/
def CanMove (s : σ) : Prop := ∃ l t, S.next l s = some t

/-- How many steps of the run of `ls` from `s` satisfy `p` (which sees the
label and the state BEFORE the step). -/
def tally (p : ℓ → σ → Bool) : List ℓ → σ → Nat
  | [], _ => 0
  | l :: ls, s =>
      match S.next l s with
      | none => 0
      | some t => (p l s).toNat + tally p ls t

/-- The same, from the start. -/
def count (p : ℓ → σ → Bool) (ls : List ℓ) : Nat := S.tally p ls S.init

/-- What the run of `ls` from `s` shows of itself, step by step. -/
def trace (obs : ℓ → σ → Option ω) : List ℓ → σ → List ω
  | [], _ => []
  | l :: ls, s =>
      match S.next l s with
      | none => []
      | some t => (obs l s).toList ++ trace obs ls t

variable {S}

@[simp] theorem exec_nil (s : σ) : S.exec [] s = some s := rfl

theorem exec_cons_eq_some {l : ℓ} {ls : List ℓ} {s u : σ} :
    S.exec (l :: ls) s = some u
      ↔ ∃ t, S.next l s = some t ∧ S.exec ls t = some u := by
  simp [exec, Option.bind_eq_some_iff]

theorem exec_append_eq_some {ls ls' : List ℓ} {s u : σ} :
    S.exec (ls ++ ls') s = some u
      ↔ ∃ t, S.exec ls s = some t ∧ S.exec ls' t = some u := by
  induction ls generalizing s with
  | nil => simp
  | cons l ls ih =>
      simp only [List.cons_append, exec_cons_eq_some, ih]
      constructor
      · rintro ⟨t, ht, v, hv, hu⟩
        exact ⟨v, ⟨t, ht, hv⟩, hu⟩
      · rintro ⟨v, ⟨t, ht, hv⟩, hu⟩
        exact ⟨t, ht, v, hv, hu⟩

theorem exec_singleton {l : ℓ} {s : σ} : S.exec [l] s = S.next l s := by
  simp only [exec]
  cases S.next l s <;> rfl

@[simp] theorem tally_nil (p : ℓ → σ → Bool) (s : σ) : S.tally p [] s = 0 := rfl

theorem tally_cons {p : ℓ → σ → Bool} {l : ℓ} {ls : List ℓ} {s t : σ}
    (h : S.next l s = some t) :
    S.tally p (l :: ls) s = (p l s).toNat + S.tally p ls t := by
  simp [tally, h]

theorem tally_append {p : ℓ → σ → Bool} {ls ls' : List ℓ} {s t : σ}
    (h : S.exec ls s = some t) :
    S.tally p (ls ++ ls') s = S.tally p ls s + S.tally p ls' t := by
  induction ls generalizing s with
  | nil => cases h; exact (Nat.zero_add _).symm
  | cons l ls ih =>
      obtain ⟨u, hu, ht⟩ := exec_cons_eq_some.mp h
      rw [List.cons_append, tally_cons hu, tally_cons hu, ih ht, Nat.add_assoc]

/-- The last step of a run is counted last. -/
theorem count_concat {p : ℓ → σ → Bool} {ls : List ℓ} {l : ℓ} {s t : σ} (h : S.Reaches ls s)
    (hl : S.next l s = some t) : S.count p (ls ++ [l]) = S.count p ls + (p l s).toNat := by
  rw [count, tally_append h, tally_cons hl, tally_nil, Nat.add_zero]
  rfl

@[simp] theorem tally_false (ls : List ℓ) (s : σ) :
    S.tally (fun _ _ => false) ls s = 0 := by
  induction ls generalizing s with
  | nil => rfl
  | cons l ls ih =>
      simp only [tally, Bool.toNat_false, Nat.zero_add]
      split
      · rfl
      · exact ih _

@[simp] theorem trace_nil (obs : ℓ → σ → Option ω) (s : σ) :
    S.trace obs [] s = [] := rfl

theorem trace_cons {obs : ℓ → σ → Option ω} {l : ℓ} {ls : List ℓ} {s t : σ}
    (h : S.next l s = some t) :
    S.trace obs (l :: ls) s = (obs l s).toList ++ S.trace obs ls t := by
  simp [trace, h]

@[simp] theorem trace_none (ls : List ℓ) (s : σ) :
    S.trace (fun _ _ => (none : Option ω)) ls s = [] := by
  induction ls generalizing s with
  | nil => rfl
  | cons l ls ih =>
      simp only [trace, Option.toList_none, List.nil_append]
      split
      · rfl
      · exact ih _

theorem trace_filterMap {obs : ℓ → σ → Option ω} (f : ω → Option κ) (ls : List ℓ) (s : σ) :
    (S.trace obs ls s).filterMap f = S.trace (fun l s => (obs l s).bind f) ls s := by
  induction ls generalizing s with
  | nil => rfl
  | cons l ls ih =>
      simp only [trace]
      split
      · rfl
      · rw [List.filterMap_append, ih]
        cases h : obs l s with
        | none => rfl
        | some o => cases hf : f o <;> simp [hf]

/-! ## Reachability -/

theorem Reaches.reachable {ls : List ℓ} {s : σ} (h : S.Reaches ls s) :
    S.Reachable s := ⟨ls, h⟩

theorem Reachable.exec {ls : List ℓ} {s t : σ} (hs : S.Reachable s)
    (h : S.exec ls s = some t) : S.Reachable t := by
  obtain ⟨pre, hpre⟩ := hs
  exact ⟨pre ++ ls, exec_append_eq_some.mpr ⟨s, hpre, h⟩⟩

theorem Reachable.next {l : ℓ} {s t : σ} (hs : S.Reachable s)
    (h : S.next l s = some t) : S.Reachable t :=
  hs.exec (exec_singleton.trans h)

/-! ## Inductive invariants -/

/-- `I` holds at the start and every step keeps it. -/
structure Inductive (S : System σ ℓ) (I : σ → Prop) : Prop where
  init : I S.init
  step : ∀ {l s t}, I s → S.next l s = some t → I t

theorem Inductive.exec {I : σ → Prop} (h : S.Inductive I) {ls : List ℓ}
    {s t : σ} (hs : I s) (hrun : S.exec ls s = some t) : I t := by
  induction ls generalizing s with
  | nil => cases hrun; exact hs
  | cons l ls ih =>
      obtain ⟨u, hu, ht⟩ := exec_cons_eq_some.mp hrun
      exact ih (h.step hs hu) ht

theorem inductive_true : S.Inductive fun _ => True := ⟨trivial, fun _ _ => trivial⟩

theorem Inductive.reachable {I : σ → Prop} (h : S.Inductive I) {s : σ}
    (hs : S.Reachable s) : I s := by
  obtain ⟨ls, hls⟩ := hs
  exact h.exec h.init hls

/-! ## Accounts over a run -/

/-- **The ledger rule**: if every step from an `I`-state credits `g` with
`p` and debits it with `q`, a whole run does so with the tallies. -/
theorem exec_ledger {I : σ → Prop} (hI : S.Inductive I) {g : σ → Int}
    {p q : ℓ → σ → Bool}
    (hstep : ∀ {l s t}, I s → S.next l s = some t →
      g t + (q l s).toNat = g s + (p l s).toNat)
    {ls : List ℓ} {s t : σ} (hs : I s) (hrun : S.exec ls s = some t) :
    g t + S.tally q ls s = g s + S.tally p ls s := by
  induction ls generalizing s with
  | nil => cases hrun; rfl
  | cons l ls ih =>
      obtain ⟨u, hu, ht⟩ := exec_cons_eq_some.mp hrun
      have h1 := hstep hs hu
      have h2 := ih (hI.step hs hu) ht
      rw [tally_cons hu, tally_cons hu]
      push_cast
      omega

/-- **The ledger of what a run shows**: if every step from an `I`-state adds to `g`
what it shows, a whole run adds the sum of its trace. -/
theorem exec_sum {I : σ → Prop} (hI : S.Inductive I) {g : σ → Int} {obs : ℓ → σ → Option Int}
    (hstep : ∀ {l s t}, I s → S.next l s = some t → g t = g s + (obs l s).getD 0)
    {ls : List ℓ} {s t : σ} (hs : I s) (hrun : S.exec ls s = some t) :
    g t = g s + (S.trace obs ls s).sum := by
  induction ls generalizing s with
  | nil => cases hrun; exact (Int.add_zero _).symm
  | cons l ls ih =>
      obtain ⟨u, hu, ht⟩ := exec_cons_eq_some.mp hrun
      rw [ih (hI.step hs hu) ht, hstep hs hu, trace_cons hu, List.sum_append, Int.add_assoc]
      cases obs l s with
      | none => simp
      | some x => simp

/-- **The balance rule**, for lists: `G s x` says that `s` holds the contents
`x`. If every step appends what `p` shows at the end and takes what `q` shows
from the front, a whole run does. -/
theorem trace_balance {G : σ → List ω → Prop} {p q : ℓ → σ → Option ω}
    (hstep : ∀ {l s t x}, G s x → S.next l s = some t →
      ∃ y, G t y ∧ x ++ (p l s).toList = (q l s).toList ++ y)
    {ls : List ℓ} {s t : σ} {x : List ω} (hs : G s x) (hrun : S.exec ls s = some t) :
    ∃ y, G t y ∧ x ++ S.trace p ls s = S.trace q ls s ++ y := by
  induction ls generalizing s x with
  | nil => cases hrun; exact ⟨x, hs, List.append_nil x⟩
  | cons l ls ih =>
      obtain ⟨u, hu, ht⟩ := exec_cons_eq_some.mp hrun
      obtain ⟨z, hz, hxz⟩ := hstep hs hu
      obtain ⟨y, hy, hzy⟩ := ih hz ht
      refine ⟨y, hy, ?_⟩
      rw [trace_cons hu, trace_cons hu, ← List.append_assoc, hxz, List.append_assoc, hzy,
        List.append_assoc]

/-- What every step but the `q` steps keeps is kept by a run without a `q`
step. -/
theorem exec_of_tally_eq_zero {I : σ → Prop} {q : ℓ → σ → Bool}
    (hstep : ∀ {l s t}, I s → S.next l s = some t → q l s = false → I t)
    {ls : List ℓ} {s t : σ} (hs : I s) (hrun : S.exec ls s = some t)
    (hq : S.tally q ls s = 0) : I t := by
  induction ls generalizing s with
  | nil => cases hrun; exact hs
  | cons l ls ih =>
      obtain ⟨u, hu, ht⟩ := exec_cons_eq_some.mp hrun
      rw [tally_cons hu] at hq
      have hl : q l s = false := by
        cases h : q l s with
        | false => rfl
        | true => simp [h] at hq
      exact ih (hstep hs hu hl) ht (by omega)

/-- What the `p` steps establish and every step keeps, from an `I`-state, holds after a run
with a `p` step. -/
theorem Inductive.exec_of_tally_ne_zero {I J : σ → Prop} (hI : S.Inductive I)
    {p : ℓ → σ → Bool}
    (hstep : ∀ {l s t}, I s → S.next l s = some t → J s ∨ p l s = true → J t)
    {ls : List ℓ} {s t : σ} (hs : I s) (hrun : S.exec ls s = some t)
    (hp : J s ∨ S.tally p ls s ≠ 0) : J t := by
  induction ls generalizing s with
  | nil =>
      cases hrun
      exact hp.resolve_right fun h => h rfl
  | cons l ls ih =>
      obtain ⟨u, hu, ht⟩ := exec_cons_eq_some.mp hrun
      have hIu := hI.step hs hu
      rw [tally_cons hu] at hp
      by_cases hl : J s ∨ p l s = true
      · exact ih hIu ht (.inl (hstep hs hu hl))
      · obtain ⟨hJ, hpl⟩ := not_or.mp hl
        rw [(Bool.not_eq_true _).mp hpl] at hp
        exact ih hIu ht (.inr fun h => (hp.resolve_left hJ) (by rw [h]; rfl))

/-- The same without an invariant. -/
theorem exec_of_tally_ne_zero {J : σ → Prop} {p : ℓ → σ → Bool}
    (hstep : ∀ {l s t}, S.next l s = some t → J s ∨ p l s = true → J t)
    {ls : List ℓ} {s t : σ} (hrun : S.exec ls s = some t)
    (hp : J s ∨ S.tally p ls s ≠ 0) : J t :=
  inductive_true.exec_of_tally_ne_zero (fun _ hnext hp => hstep hnext hp) trivial hrun hp

/-- **The budget rule**: as long as no `stop` step is taken, every step
keeps `I`, and pays from `b` when it is counted by `p`; so a run
without a `stop` step has at most `b` counted steps. -/
theorem tally_le_of_budget {I : σ → Prop} {b : σ → Nat}
    {stop p : ℓ → σ → Bool}
    (hstep : ∀ {l s t}, I s → S.next l s = some t → stop l s = false →
      I t ∧ b t + (p l s).toNat ≤ b s)
    {ls : List ℓ} {s t : σ} (hs : I s) (hrun : S.exec ls s = some t)
    (hstop : S.tally stop ls s = 0) : S.tally p ls s ≤ b s := by
  induction ls generalizing s with
  | nil => exact Nat.zero_le _
  | cons l ls ih =>
      obtain ⟨u, hu, ht⟩ := exec_cons_eq_some.mp hrun
      rw [tally_cons hu] at hstop ⊢
      have hl : stop l s = false := by
        cases h : stop l s with
        | false => rfl
        | true => simp [h] at hstop
      obtain ⟨hIu, hb⟩ := hstep hs hu hl
      have := ih hIu ht (by omega)
      omega

/-- **The rule of the first bad observation**: if the `p` steps are those that show a
bad one, as long as none has been shown, a run without a `p` step shows nothing but good
ones, and conversely. -/
theorem tally_eq_zero_iff_of_good {I : σ → Prop} {p : ℓ → σ → Bool} {obs : ℓ → σ → Option ω}
    {good : ω → Prop}
    (hstep : ∀ {l s t}, I s → S.next l s = some t →
      (p l s = false ↔ ∀ o, obs l s = some o → good o) ∧ (p l s = false → I t))
    {ls : List ℓ} {s t : σ} (hs : I s) (hrun : S.exec ls s = some t) :
    S.tally p ls s = 0 ↔ ∀ o ∈ S.trace obs ls s, good o := by
  induction ls generalizing s with
  | nil => exact ⟨fun _ => nofun, fun _ => rfl⟩
  | cons l ls ih =>
      obtain ⟨u, hu, ht⟩ := exec_cons_eq_some.mp hrun
      obtain ⟨hfirst, hkeep⟩ := hstep hs hu
      rw [tally_cons hu, trace_cons hu, Nat.add_eq_zero_iff, Bool.toNat_eq_zero,
        List.forall_mem_append]
      simp only [Option.mem_toList]
      rw [← hfirst]
      exact and_congr_right fun hp => ih (hkeep hp) ht

/-- The same, for an invariant that every step keeps. -/
theorem tally_eq_zero_iff {I : σ → Prop} (hI : S.Inductive I) {p : ℓ → σ → Bool}
    {obs : ℓ → σ → Option ω} {good : ω → Prop}
    (hstep : ∀ {l s t}, I s → S.next l s = some t →
      (p l s = false ↔ ∀ o, obs l s = some o → good o))
    {ls : List ℓ} {s t : σ} (hs : I s) (hrun : S.exec ls s = some t) :
    S.tally p ls s = 0 ↔ ∀ o ∈ S.trace obs ls s, good o :=
  tally_eq_zero_iff_of_good (I := I) (fun hs hu => ⟨hstep hs hu, fun _ => hI.step hs hu⟩) hs hrun

/-- The same, when only the step that is taken counts. -/
theorem tally_eq_zero_iff_forall {p : ℓ → σ → Bool} {obs : ℓ → σ → Option ω} {good : ω → Prop}
    (hobs : ∀ l s, p l s = false ↔ ∀ o, obs l s = some o → good o) {ls : List ℓ} {s t : σ}
    (hrun : S.exec ls s = some t) : S.tally p ls s = 0 ↔ ∀ o ∈ S.trace obs ls s, good o :=
  tally_eq_zero_iff inductive_true (fun {l s _} _ _ => hobs l s) trivial hrun

/-! ## The states of a run -/

/-- `P` holds in every state that the run of `ls` from `s` goes through. -/
def Throughout (S : System σ ℓ) (P : σ → Prop) (ls : List ℓ) (s : σ) : Prop :=
  ∀ ls' t, ls' <+: ls → S.exec ls' s = some t → P t

theorem throughout_cons {P : σ → Prop} {l : ℓ} {ls : List ℓ} {s t : σ}
    (h : S.next l s = some t) :
    S.Throughout P (l :: ls) s ↔ P s ∧ S.Throughout P ls t := by
  constructor
  · intro hall
    refine ⟨hall [] s List.nil_prefix rfl, fun ls' u hpre hu => ?_⟩
    exact hall (l :: ls') u ((List.prefix_cons_inj l).mpr hpre)
      (exec_cons_eq_some.mpr ⟨t, h, hu⟩)
  · rintro ⟨hs, hall⟩ ls' u hpre hu
    cases ls' with
    | nil =>
        cases hu
        exact hs
    | cons l' ls' =>
        obtain ⟨rfl, htail⟩ := List.cons_prefix_cons.mp hpre
        obtain ⟨t', ht', hu⟩ := exec_cons_eq_some.mp hu
        rw [h] at ht'
        cases ht'
        exact hall ls' u htail hu

theorem Throughout.last {P : σ → Prop} {ls : List ℓ} {s t : σ} (h : S.Throughout P ls s)
    (hrun : S.exec ls s = some t) : P t :=
  h ls t (List.prefix_refl ls) hrun

/-- **The rule of the first slip**: if a step from a good state leads to a good one just
when it is not counted by `p`, a run stays in good states just when no step of it is
counted. -/
theorem throughout_iff {I P : σ → Prop} (hI : S.Inductive I) {p : ℓ → σ → Bool}
    (hstep : ∀ {l s t}, I s → P s → S.next l s = some t → (P t ↔ p l s = false))
    {ls : List ℓ} {s t : σ} (hs : I s) (hgood : P s) (hrun : S.exec ls s = some t) :
    S.Throughout P ls s ↔ S.tally p ls s = 0 := by
  induction ls generalizing s with
  | nil =>
      refine ⟨fun _ => rfl, fun _ ls' u hpre hu => ?_⟩
      rw [List.prefix_nil.mp hpre] at hu
      cases hu
      exact hgood
  | cons l ls ih =>
      obtain ⟨u, hu, ht⟩ := exec_cons_eq_some.mp hrun
      have hfirst := hstep hs hgood hu
      rw [throughout_cons hu, tally_cons hu, Nat.add_eq_zero_iff, Bool.toNat_eq_zero]
      constructor
      · rintro ⟨-, hrest⟩
        have hgood' := hrest [] u List.nil_prefix rfl
        exact ⟨hfirst.mp hgood', (ih (hI.step hs hu) hgood' ht).mp hrest⟩
      · rintro ⟨hp, hrest⟩
        exact ⟨hgood, (ih (hI.step hs hu) (hfirst.mpr hp) ht).mpr hrest⟩

/-! ## Forward simulation -/

/-- `R` relates the states of `S` to those of the abstract system `A`: a
step of `S` that shows `o` is matched by the step `o` of `A`, and a silent
step by none. -/
structure Simulation (S : System σ ℓ) (A : System τ ω) (obs : ℓ → σ → Option ω)
    (R : σ → τ → Prop) : Prop where
  init : R S.init A.init
  step : ∀ {l s t a}, R s a → S.next l s = some t →
    ∃ a', A.exec (obs l s).toList a = some a' ∧ R t a'

theorem Simulation.exec {A : System τ ω} {obs : ℓ → σ → Option ω}
    {R : σ → τ → Prop} (h : S.Simulation A obs R) {ls : List ℓ} {s t : σ}
    {a : τ} (hR : R s a) (hrun : S.exec ls s = some t) :
    ∃ a', A.exec (S.trace obs ls s) a = some a' ∧ R t a' := by
  induction ls generalizing s a with
  | nil => cases hrun; exact ⟨a, rfl, hR⟩
  | cons l ls ih =>
      obtain ⟨u, hu, ht⟩ := exec_cons_eq_some.mp hrun
      obtain ⟨b, hb, hRb⟩ := h.step hR hu
      obtain ⟨a', ha', hRt⟩ := ih hRb ht
      rw [trace_cons hu]
      exact ⟨a', exec_append_eq_some.mpr ⟨b, hb, ha'⟩, hRt⟩

theorem Simulation.reaches {A : System τ ω} {obs : ℓ → σ → Option ω}
    {R : σ → τ → Prop} (h : S.Simulation A obs R) {ls : List ℓ} {t : σ}
    (hrun : S.Reaches ls t) :
    ∃ a', A.Reaches (S.trace obs ls S.init) a' ∧ R t a' :=
  h.exec h.init hrun

/-- Both sides of a simulation show the same, when related steps do and a
silent step shows nothing. -/
theorem Simulation.trace_eq {A : System τ ω} {obs : ℓ → σ → Option ω}
    {R : σ → τ → Prop} (h : S.Simulation A obs R) {show₁ : ℓ → σ → Option κ}
    {show₂ : ω → τ → Option κ}
    (hshow : ∀ {l s t a}, R s a → S.next l s = some t →
      show₁ l s = (obs l s).bind fun o => show₂ o a)
    {ls : List ℓ} {s t : σ} {a : τ} (hR : R s a) (hrun : S.exec ls s = some t) :
    S.trace show₁ ls s = A.trace show₂ (S.trace obs ls s) a := by
  induction ls generalizing s a with
  | nil => rfl
  | cons l ls ih =>
      obtain ⟨u, hu, ht⟩ := exec_cons_eq_some.mp hrun
      obtain ⟨b, hb, hRb⟩ := h.step hR hu
      rw [trace_cons hu, trace_cons hu, hshow hR hu, ih hRb ht]
      cases ho : obs l s with
      | none =>
          rw [ho] at hb
          cases hb
          rfl
      | some o =>
          rw [ho] at hb
          exact (trace_cons (exec_singleton.symm.trans hb)).symm

end System
end Interleave
