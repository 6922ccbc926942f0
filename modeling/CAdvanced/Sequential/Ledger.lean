import Mathlib.Data.List.Perm.Basic
import Mathlib.Tactic.Simps.Basic

/-!
# Sequential — A ledger of resources

What has been taken and not given back, and what was given back without being held: a
second release of one thing, or the release of something never taken. The account is
settled when there is nothing of either kind.
-/

namespace CAdvanced.Sequential

variable {ρ : Type}

/-- An account of resources. -/
structure Ledger (ρ : Type) where
  /-- Taken and not given back. -/
  held : List ρ := []
  /-- Given back while not held. -/
  again : List ρ := []
  deriving DecidableEq, Repr

namespace Ledger

/-- Everything taken has been given back, once. -/
def Settled (l : Ledger ρ) : Prop := l.held = [] ∧ l.again = []

instance [DecidableEq ρ] (l : Ledger ρ) : Decidable l.Settled :=
  inferInstanceAs (Decidable (_ ∧ _))

/-- `rs`, the last of them first. -/
@[simps] def takeAll (rs : List ρ) (l : Ledger ρ) : Ledger ρ := { l with held := rs ++ l.held }

variable [DecidableEq ρ]

def give (r : ρ) (l : Ledger ρ) : Ledger ρ :=
  if r ∈ l.held then { l with held := l.held.erase r } else { l with again := r :: l.again }

/-- `rs`, the first of them first. -/
def giveAll : List ρ → Ledger ρ → Ledger ρ
  | [], l => l
  | r :: rs, l => giveAll rs (l.give r)

/-- What was given back once too often stays on the account. -/
theorem again_giveAll {l : Ledger ρ} (h : l.again ≠ []) (rs : List ρ) :
    (giveAll rs l).again ≠ [] := by
  induction rs generalizing l with
  | nil => exact h
  | cons r rs ih =>
    apply ih
    by_cases hr : r ∈ l.held
    · simpa [give, hr] using h
    · simp [give, hr]

/-- **Settling**: an account on which `xs` are held is settled by giving back `rs` exactly
if `rs` are `xs`, in some order. -/
theorem settled_giveAll_iff (rs xs : List ρ) : (giveAll rs ⟨xs, []⟩).Settled ↔ rs.Perm xs := by
  induction rs generalizing xs with
  | nil => simp [giveAll, Settled, List.nil_perm]
  | cons r rs ih =>
    by_cases hr : r ∈ xs
    · have hgive : (⟨xs, []⟩ : Ledger ρ).give r = ⟨xs.erase r, []⟩ := by simp [give, hr]
      rw [giveAll, hgive, ih, List.cons_perm_iff_perm_erase]
      simp [hr]
    · have hgive : (⟨xs, []⟩ : Ledger ρ).give r = ⟨xs, [r]⟩ := by simp [give, hr]
      rw [giveAll, hgive]
      constructor
      · intro h
        exact absurd h.2 (again_giveAll (by simp) rs)
      · intro h
        exact absurd (h.subset List.mem_cons_self) hr

theorem mem_held_give {q r : ρ} {l : Ledger ρ} (hq : q ∈ l.held) (hne : q ≠ r) :
    q ∈ (l.give r).held := by
  by_cases hr : r ∈ l.held
  · simpa [give, hr] using (List.mem_erase_of_ne hne).mpr hq
  · simpa [give, hr] using hq

theorem mem_held_giveAll {q : ρ} {rs : List ρ} {l : Ledger ρ} (hq : q ∈ l.held)
    (hrs : q ∉ rs) : q ∈ (giveAll rs l).held := by
  induction rs generalizing l with
  | nil => exact hq
  | cons r rs ih =>
    obtain ⟨hne, hrest⟩ := List.ne_and_not_mem_of_not_mem_cons hrs
    exact ih (mem_held_give hq hne) hrest

end Ledger

end CAdvanced.Sequential
