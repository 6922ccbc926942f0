import CAdvanced.CInt.Wrap
import Mathlib.Data.List.TakeWhile
import Mathlib.Algebra.Order.Ring.Int

/-!
# CText — numbers as text

How an `int` is printed (`<<`, `std::to_string`, `%d`), and how `std::stoi` reads one:
white space, a sign, as many digits as there are, and no look at the rest. Without a digit
it throws `invalid_argument`, and `out_of_range` for a number that is no `int`.

What is printed is read back: `stoi_decimal`.
-/

namespace CText

open CInt

/-- The exceptions of `std::stoi`. -/
inductive StoiError where
  | invalidArgument
  | outOfRange
  deriving DecidableEq, Repr

/-- `isspace`. -/
def isSpace (c : Char) : Bool := c.toNat = 32 || 9 ≤ c.toNat && c.toNat ≤ 13

/-- Takes a sign off: whether it is a minus, and the rest. -/
def takeSign : List Char → Bool × List Char
  | '-' :: s => (true, s)
  | '+' :: s => (false, s)
  | s => (false, s)

/-- The number with this sign and these digits, if there are any and it is an `int`. -/
def ofDigits (minus : Bool) (digits : List Char) : Except StoiError Int :=
  if digits = [] then .error .invalidArgument
  else
    let n : Int := Nat.ofDigitChars 10 digits 0
    let v := if minus then -n else n
    if intMin ≤ v ∧ v ≤ intMax then .ok v else .error .outOfRange

/-- `std::stoi(s)`. -/
def stoi (s : List Char) : Except StoiError Int :=
  let r := takeSign (s.dropWhile isSpace)
  ofDigits r.1 (r.2.takeWhile Char.isDigit)

/-- `std::to_string(n)`. -/
def decimal : Int → List Char
  | .ofNat n => Nat.toDigits 10 n
  | .negSucc n => '-' :: Nat.toDigits 10 (n + 1)

/-! ## Digits -/

theorem isDigit_toDigits {n : Nat} {c : Char} (h : c ∈ Nat.toDigits 10 n) : c.isDigit = true :=
  Nat.isDigit_of_mem_toDigits (by decide) (by decide) h

/-- A digit is neither white space nor a sign. -/
theorem digit_cases {c : Char} (h : c.isDigit = true) :
    isSpace c = false ∧ c ≠ '-' ∧ c ≠ '+' ∧ c ≠ '\n' := by
  obtain ⟨hlow, hhigh⟩ := Char.isDigit_iff_toNat.mp h
  have hlow : 48 ≤ c.toNat := hlow
  have hhigh : c.toNat ≤ 57 := hhigh
  have hne : ∀ d : Char, d.toNat < 48 → c ≠ d := by
    rintro d hd rfl
    omega
  refine ⟨?_, hne _ (by decide), hne _ (by decide), hne _ (by decide)⟩
  simp only [isSpace, Bool.or_eq_false_iff, Bool.and_eq_false_iff, decide_eq_false_iff_not]
  omega

/-- The digits of a number begin with no sign. -/
theorem takeSign_toDigits (n : Nat) : takeSign (Nat.toDigits 10 n) = (false, Nat.toDigits 10 n) := by
  cases hdigits : Nat.toDigits 10 n with
  | nil => rfl
  | cons c cs =>
      have hc : c ∈ Nat.toDigits 10 n := by
        rw [hdigits]
        exact List.mem_cons_self
      obtain ⟨-, hminus, hplus, -⟩ := digit_cases (isDigit_toDigits hc)
      unfold takeSign
      split
      · rename_i s heq
        exact absurd (List.cons.inj heq).1 hminus
      · rename_i s heq
        exact absurd (List.cons.inj heq).1 hplus
      · rfl

theorem takeWhile_toDigits (n : Nat) :
    (Nat.toDigits 10 n).takeWhile Char.isDigit = Nat.toDigits 10 n :=
  List.takeWhile_eq_self_iff.mpr fun _ h => isDigit_toDigits h

theorem ofDigits_toDigits {minus : Bool} {n : Nat} {v : Int}
    (hv : (if minus then -(n : Int) else n) = v) (hlow : intMin ≤ v) (hhigh : v ≤ intMax) :
    ofDigits minus (Nat.toDigits 10 n) = .ok v := by
  unfold ofDigits
  rw [if_neg Nat.toDigits_ne_nil, Nat.ofDigitChars_ten_toDigits]
  dsimp only
  rw [hv, if_pos ⟨hlow, hhigh⟩]

/-! ## The round trip -/

/-- A printed number does not begin with white space. -/
theorem dropWhile_decimal (n : Int) : (decimal n).dropWhile isSpace = decimal n := by
  cases n with
  | ofNat n =>
      show (Nat.toDigits 10 n).dropWhile isSpace = Nat.toDigits 10 n
      cases hdigits : Nat.toDigits 10 n with
      | nil => rfl
      | cons c cs =>
          have hc : c ∈ Nat.toDigits 10 n := by
            rw [hdigits]
            exact List.mem_cons_self
          rw [List.dropWhile_cons_of_neg]
          rw [(digit_cases (isDigit_toDigits hc)).1]
          exact nofun
  | negSucc n => rfl

/-- **What is printed is read back**. -/
theorem stoi_decimal {n : Int} (hlow : intMin ≤ n) (hhigh : n ≤ intMax) :
    stoi (decimal n) = .ok n := by
  unfold stoi
  rw [dropWhile_decimal]
  cases n with
  | ofNat n =>
      rw [decimal, takeSign_toDigits]
      dsimp only
      rw [takeWhile_toDigits]
      exact ofDigits_toDigits rfl hlow hhigh
  | negSucc n =>
      rw [decimal, takeSign]
      dsimp only
      rw [takeWhile_toDigits]
      exact ofDigits_toDigits rfl hlow hhigh

theorem newline_notMem_decimal (n : Int) : '\n' ∉ decimal n := by
  have hdigits : ∀ k, '\n' ∉ Nat.toDigits 10 k := fun k h =>
    (digit_cases (isDigit_toDigits h)).2.2.2 rfl
  cases n with
  | ofNat n => exact hdigits n
  | negSucc n =>
      rw [decimal, List.mem_cons, not_or]
      exact ⟨by decide, hdigits (n + 1)⟩

theorem decimal_ne_nil (n : Int) : decimal n ≠ [] := by
  cases n with
  | ofNat n => exact Nat.toDigits_ne_nil
  | negSucc n => exact nofun

/-- The digits of a natural number. -/
theorem decimal_natCast (n : Nat) : decimal n = Nat.toDigits 10 n := rfl

theorem decimal_natCast_inj {m n : Nat} (h : decimal m = decimal n) : m = n := by
  rw [decimal_natCast, decimal_natCast] at h
  rw [← Nat.ofDigitChars_ten_toDigits (n := m), h, Nat.ofDigitChars_ten_toDigits]

/-- A number with at most `k` digits. -/
theorem length_decimal_le {n k : Nat} (hk : 0 < k) :
    (decimal n).length ≤ k ↔ n < 10 ^ k :=
  Nat.length_toDigits_le_iff (by decide) hk

end CText
