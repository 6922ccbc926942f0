import CAdvanced.HelloCounted.Counters
import CAdvanced.Sequential.Drain

/-!
# HelloCounted — Bounds

How long the text of `read_hello` can get. An `int` is printed with 1 to 11 characters, also
after it has wrapped around, so the text has 48 to 58 of them, and its NUL still fits
`hello`. The reads advance the number that they print, and so change the length of the text
while they go through it; but each of them moves `*offset` on, and no text is longer than 58.
-/

namespace CAdvanced.HelloCounted

open Heap CAdvanced.Sequential

/-- How much `read_hello` allocates for the text. -/
def helloSize : Nat := 60

/-- The value of an `int`. -/
def IsInt (n : Int) : Prop := -2 ^ 31 ≤ n ∧ n < 2 ^ 31

/-- A counter, and the `*offset` of the instance that reads. -/
abbrev Reader := Cell Int × Int

/-- A read without faults. -/
def readInstance (junk : Nat → Int) (s : Reader) (count : Nat) : Reading Reader Char :=
  let r := readHello junk s.1 s.2 count 0
  ⟨(r.counter, r.offset), r.ret, r.delivered⟩

/-! ## The text of an `int` -/

theorem isInt_toInt (n : Int) : IsInt (toInt n) := by
  unfold IsInt toInt
  rw [Int.bmod_def]
  omega

/-- The digits of a number that is not negative. -/
theorem toString_nonneg {n : Int} (h : 0 ≤ n) :
    (toString n).toList = Nat.toDigits 10 n.toNat := by
  rw [Int.toString_eq_repr, Int.repr_eq_if, if_pos h, Nat.toList_repr]

/-- A minus and the digits of the absolute value. -/
theorem toString_neg {n : Int} (h : n < 0) :
    (toString n).toList = '-' :: Nat.toDigits 10 (-n).toNat := by
  rw [Int.toString_eq_repr, Int.repr_eq_if, if_neg (Int.not_le.mpr h), String.toList_append,
    Nat.toList_repr]
  rfl

/-- An absolute value has at most ten digits. -/
theorem length_digits {n : Nat} (h : n ≤ 2 ^ 31) :
    1 ≤ (Nat.toDigits 10 n).length ∧ (Nat.toDigits 10 n).length ≤ 10 := by
  constructor
  · exact List.length_pos_of_ne_nil Nat.toDigits_ne_nil
  · rw [Nat.length_toDigits_le_iff (by decide) (by decide)]
    omega

theorem length_toString {n : Int} (h : IsInt n) :
    1 ≤ (toString n).toList.length ∧ (toString n).toList.length ≤ 11 := by
  obtain ⟨hlow, hhigh⟩ := h
  rcases Int.lt_or_le n 0 with hneg | hnonneg
  · have habs : (-n).toNat ≤ 2 ^ 31 := by omega
    obtain ⟨hpos, hle⟩ := length_digits habs
    rw [toString_neg hneg, List.length_cons]
    omega
  · have habs : n.toNat ≤ 2 ^ 31 := by omega
    obtain ⟨hpos, hle⟩ := length_digits habs
    rw [toString_nonneg hnonneg]
    omega

/-- The text has at least 48 characters and at most 58. -/
theorem length_message {n : Int} (h : IsInt n) :
    48 ≤ (message n).toList.length ∧ (message n).toList.length ≤ 58 := by
  obtain ⟨hpos, hle⟩ := length_toString h
  rw [message_length_eq]
  omega

/-! ## The reads -/

/-- A counter that has not been freed and an offset that has only been moved on. -/
structure Reading.Ok (s : Reader) : Prop where
  live : s.1.Live
  int : IsInt s.1.value
  offset : 0 ≤ s.2

/-- How far it can be to the end of the text, at most. -/
def left (s : Reader) : Nat := (58 - s.2).toNat

variable {junk : Nat → Int} {s : Reader} {count : Nat}

/-- **One read** that delivers something: it started before the end of the text, and has
come nearer to it. -/
theorem readInstance_step (hs : Reading.Ok s) (hret : (readInstance junk s count).ret ≠ 0) :
    Reading.Ok (readInstance junk s count).state
      ∧ left (readInstance junk s count).state < left s := by
  obtain ⟨c, offset⟩ := s
  have hlive : c.Live := hs.live
  have hoffset : 0 ≤ offset := hs.offset
  have hlength : (message c.value).toList.length ≤ 58 := (length_message hs.int).2
  unfold readInstance readHello at hret ⊢
  dsimp only at hret ⊢
  rw [hlive.load_eq] at hret ⊢
  split at hret
  · exact absurd rfl hret
  · next hbefore =>
    rw [if_neg hbefore]
    dsimp only at hret ⊢
    refine ⟨⟨?_, isInt_toInt _, ?_⟩, ?_⟩
    · exact hlive.use.store _
    · show 0 ≤ offset + _
      omega
    · show (58 - (offset + _)).toNat < (58 - offset).toNat
      omega

/-- **The bounds on the text**: whatever the counter has come to, the text and its NUL fit
the buffer and the text has at least 48 characters; and an instance that is read until a
read returns 0 comes to that end, after at most 58 reads that deliver something. -/
theorem message_bounds (junk : Nat → Int) {counted offset : Int} (hint : IsInt counted)
    (hoffset : 0 ≤ offset) {counts : Nat → Nat} (hpos : ∀ k, 0 < counts k) {fuel : Nat}
    (hfuel : 58 < fuel) :
    (48 ≤ (message counted).toList.length ∧ (message counted).toList.length + 1 ≤ helloSize)
      ∧ ∃ parts, drain (readInstance junk) counts fuel 0 (Cell.new counted, offset) = some parts
          ∧ parts.length ≤ 58 := by
  obtain ⟨hshort, hlong⟩ := length_message hint
  refine ⟨⟨hshort, Nat.le_trans (Nat.succ_le_succ hlong) (by decide)⟩, ?_⟩
  have hleft : left (Cell.new counted, offset) ≤ 58 := by
    unfold left
    omega
  have hstart : Reading.Ok (Cell.new counted, offset) :=
    ⟨Cell.live_new counted, hint, hoffset⟩
  obtain ⟨parts, hparts, hlength⟩ := drain_of_measure Reading.Ok left hpos
    (fun hs _ hret => readInstance_step hs hret) hstart (Nat.lt_of_le_of_lt hleft hfuel)
  exact ⟨parts, hparts, Nat.le_trans hlength hleft⟩

/-- From the smallest `int` on, twenty characters at a time. -/
theorem message_bounds_smallest :
    (message (-2147483648)).toList.length + 1 ≤ helloSize
      ∧ ∃ parts, drain (readInstance fun _ => 0) (fun _ => 20) 59 0 (Cell.new (-2147483648), 0)
          = some parts ∧ parts.length ≤ 58 := by
  have hint : IsInt (-2147483648) := by
    unfold IsInt
    decide
  have hpos : ∀ k, 0 < (fun _ : Nat => 20) k := fun _ => Nat.succ_pos 19
  obtain ⟨⟨-, hfits⟩, hreads⟩ :=
    message_bounds (fun _ => 0) hint (Int.le_refl 0) hpos (Nat.lt_succ_self 58)
  exact ⟨hfits, hreads⟩

end CAdvanced.HelloCounted
