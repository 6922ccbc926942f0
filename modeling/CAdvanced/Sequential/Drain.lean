import Mathlib.Data.List.Basic

/-!
# Sequential — Drain

Reading an open file until a read returns 0, as `cat` does it: each read is asked for some
number of bytes, delivers a part, and leaves the file at another place. The parts are kept
apart, so that they can be counted as well as put together.

A file is drained if each part brings it nearer to its end (`drain_of_measure`).
-/

namespace CAdvanced.Sequential

/-- What a read leaves behind, what it returns, and the part that it delivers. -/
structure Reading (σ β : Type) where
  state : σ
  ret : Nat
  part : List β
  deriving DecidableEq, Repr

variable {σ β : Type}

/-- The parts that successive reads deliver until one of them returns 0. The `k`-th read
asks for `counts k` bytes; `none` says that the fuel has run out. -/
def drain (read : σ → Nat → Reading σ β) (counts : Nat → Nat) :
    (fuel k : Nat) → σ → Option (List (List β))
  | 0, _, _ => none
  | fuel + 1, k, s =>
      let r := read s (counts k)
      if r.ret = 0 then some []
      else (drain read counts fuel (k + 1) r.state).map (r.part :: ·)

variable {read : σ → Nat → Reading σ β} {counts : Nat → Nat} {fuel k : Nat} {s : σ}

/-- There is nothing more to read. -/
theorem drain_last (h : (read s (counts k)).ret = 0) :
    drain read counts (fuel + 1) k s = some [] := if_pos h

/-- A part, and those of the reads after it. -/
theorem drain_more (h : (read s (counts k)).ret ≠ 0) :
    drain read counts (fuel + 1) k s
      = (drain read counts fuel (k + 1) (read s (counts k)).state).map
          ((read s (counts k)).part :: ·) := if_neg h

/-- **The measure rule**: if every part that is delivered brings the file nearer to its end,
the reads come to an end, and there are no more parts than the measure says. -/
theorem drain_of_measure (I : σ → Prop) (left : σ → Nat) (hpos : ∀ k, 0 < counts k)
    (hstep : ∀ {s count}, I s → 0 < count → (read s count).ret ≠ 0 →
      I (read s count).state ∧ left (read s count).state < left s)
    (hs : I s) (hfuel : left s < fuel) :
    ∃ parts, drain read counts fuel k s = some parts ∧ parts.length ≤ left s := by
  induction fuel generalizing k s with
  | zero => exact absurd hfuel (Nat.not_lt_zero _)
  | succ fuel ih =>
      by_cases hret : (read s (counts k)).ret = 0
      · exact ⟨[], drain_last hret, Nat.zero_le _⟩
      · obtain ⟨hI, hless⟩ := hstep hs (hpos k) hret
        obtain ⟨parts, hparts, hlength⟩ := ih (k := k + 1) hI (by omega)
        refine ⟨(read s (counts k)).part :: parts, ?_, ?_⟩
        · rw [drain_more hret, hparts, Option.map_some]
        · rw [List.length_cons]
          omega

end CAdvanced.Sequential
