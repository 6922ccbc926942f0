import Mathlib.Data.List.TakeWhile

/-!
# CText — lines

`std::getline` takes the characters up to the next newline off a text, and the newline with
them; the last line may have none. On a text that is used up it fails.
-/

namespace CText

/-- `std::getline`: the next line, and what is left. -/
def getline (s : List Char) : Option (List Char × List Char) :=
  if s = [] then none
  else some (s.takeWhile (· ≠ '\n'), (s.dropWhile (· ≠ '\n')).tail)

/-- All the lines that a loop over `getline` gets. -/
def lines : List Char → List (List Char)
  | [] => []
  | c :: s =>
      if c = '\n' then [] :: lines s
      else
        match lines s with
        | [] => [[c]]
        | l :: ls => (c :: l) :: ls

/-- The loop: the next line, and then those of what is left. -/
theorem lines_eq_getline (s : List Char) :
    lines s = match getline s with
      | none => []
      | some (l, rest) => l :: lines rest := by
  induction s with
  | nil => rfl
  | cons c s ih =>
      by_cases hc : c = '\n'
      · subst hc
        rfl
      · rw [lines, if_neg hc, ih]
        cases s with
        | nil => simp [getline, hc, lines]
        | cons d s => simp [getline, hc]

/-- A text without a newline is one line, and a newline at its end changes nothing. -/
theorem lines_of_notMem {s : List Char} (hs : '\n' ∉ s) (hne : s ≠ []) :
    lines s = [s] ∧ lines (s ++ ['\n']) = [s] := by
  induction s with
  | nil => exact absurd rfl hne
  | cons c s ih =>
      have hc : c ≠ '\n' := fun h => hs (h ▸ List.mem_cons_self)
      have hs' : '\n' ∉ s := fun h => hs (List.mem_cons_of_mem c h)
      cases s with
      | nil => simp [lines, hc]
      | cons d s =>
          obtain ⟨hlines, hlines'⟩ := ih hs' nofun
          refine ⟨?_, ?_⟩
          · rw [lines, if_neg hc, hlines]
          · rw [List.cons_append, lines, if_neg hc, hlines']

end CText
