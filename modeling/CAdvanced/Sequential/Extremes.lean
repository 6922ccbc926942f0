import Mathlib.Data.List.Basic

/-!
# Sequential — Extremes

The best of the values seen so far, as a loop keeps it: `if (x is better than best) best = x`.
Which of two values is better may be any strict order in which two values of one rank are
the same (`Ranks`); "larger" and "smaller" in a linear order are the two that programs use.
-/

namespace CAdvanced.Sequential

variable {α : Type}

/-- The new best value. -/
def pick (better : α → α → Prop) [DecidableRel better] (best x : α) : α :=
  if better x best then x else best

/-- What makes "better" a ranking of all values. -/
structure Ranks (better : α → α → Prop) : Prop where
  asymm : ∀ {a b}, better a b → ¬ better b a
  trans : ∀ {a b c}, ¬ better a b → ¬ better b c → ¬ better a c
  eq : ∀ {a b}, ¬ better a b → ¬ better b a → a = b

theorem Ranks.irrefl {better : α → α → Prop} (hr : Ranks better) (a : α) : ¬ better a a :=
  fun h => hr.asymm h h

section Pick
variable (better : α → α → Prop) [DecidableRel better]

theorem pick_cases (best x : α) :
    better x best ∧ pick better best x = x ∨ ¬ better x best ∧ pick better best x = best := by
  by_cases h : better x best
  · exact .inl ⟨h, if_pos h⟩
  · exact .inr ⟨h, if_neg h⟩

/-- The best value is one of those seen. -/
theorem foldl_pick_mem (a : α) (xs : List α) : xs.foldl (pick better) a ∈ a :: xs := by
  induction xs generalizing a with
  | nil => exact List.mem_singleton_self a
  | cons x xs ih =>
      rw [List.foldl_cons]
      rcases pick_cases better a x with ⟨-, hpick⟩ | ⟨-, hpick⟩
      · rw [hpick]
        exact List.mem_cons_of_mem a (ih x)
      · rw [hpick]
        rcases List.mem_cons.mp (ih a) with heq | hmem
        · rw [heq]
          exact List.mem_cons_self
        · exact List.mem_cons_of_mem a (List.mem_cons_of_mem x hmem)

variable {better} (hr : Ranks better)
include hr

/-- Neither the old best value nor the new one is better than what is picked. -/
theorem Ranks.pick_best (best x : α) :
    ¬ better best (pick better best x) ∧ ¬ better x (pick better best x) := by
  rcases pick_cases better best x with ⟨h, hpick⟩ | ⟨h, hpick⟩
  · rw [hpick]
    exact ⟨hr.asymm h, hr.irrefl x⟩
  · rw [hpick]
    exact ⟨hr.irrefl best, h⟩

/-- **No value seen is better than the best.** -/
theorem Ranks.foldl_best (a : α) (xs : List α) :
    ∀ x ∈ a :: xs, ¬ better x (xs.foldl (pick better) a) := by
  induction xs generalizing a with
  | nil =>
      intro x hx
      rw [List.mem_singleton.mp hx]
      exact hr.irrefl a
  | cons y ys ih =>
      intro x hx
      rw [List.foldl_cons]
      obtain ⟨ha, hy⟩ := hr.pick_best a y
      have hbest := ih (pick better a y) (pick better a y) List.mem_cons_self
      rcases List.mem_cons.mp hx with rfl | hx
      · exact hr.trans ha hbest
      · rcases List.mem_cons.mp hx with rfl | hx
        · exact hr.trans hy hbest
        · exact ih (pick better a y) x (List.mem_cons_of_mem _ hx)

/-- A loop that starts with a value no better than any ends with the best of those seen. -/
theorem Ranks.foldl_extreme {a : α} {xs : List α} (hne : xs ≠ []) (ha : ∀ x, ¬ better a x) :
    xs.foldl (pick better) a ∈ xs ∧ ∀ x ∈ xs, ¬ better x (xs.foldl (pick better) a) := by
  have hmem := foldl_pick_mem better a xs
  have hbest : ∀ x ∈ xs, ¬ better x (xs.foldl (pick better) a) :=
    fun x hx => hr.foldl_best a xs x (List.mem_cons_of_mem a hx)
  generalize xs.foldl (pick better) a = m at hmem hbest
  refine ⟨?_, hbest⟩
  rcases List.mem_cons.mp hmem with rfl | hmem
  · obtain ⟨x, hx⟩ := List.exists_mem_of_ne_nil xs hne
    rw [hr.eq (ha x) (hbest x hx)]
    exact hx
  · exact hmem

end Pick

/-! ## The largest and the smallest value -/

section Order
variable [LE α] [LT α] [Std.IsLinearOrder α] [Std.LawfulOrderLT α]

theorem ranks_gt : Ranks fun x best : α => best < x where
  asymm h := Std.not_lt.mpr (Std.le_of_lt h)
  trans h h' := Std.not_lt.mpr (Std.le_trans (Std.not_lt.mp h) (Std.not_lt.mp h'))
  eq h h' := Std.le_antisymm (Std.not_lt.mp h) (Std.not_lt.mp h')

theorem ranks_lt : Ranks fun x best : α => x < best where
  asymm h := Std.not_lt.mpr (Std.le_of_lt h)
  trans h h' := Std.not_lt.mpr (Std.le_trans (Std.not_lt.mp h') (Std.not_lt.mp h))
  eq h h' := Std.le_antisymm (Std.not_lt.mp h') (Std.not_lt.mp h)

end Order

end CAdvanced.Sequential
