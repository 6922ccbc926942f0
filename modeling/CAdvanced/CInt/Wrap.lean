import Mathlib.Algebra.GroupWithZero.Nat
import Mathlib.Algebra.Ring.Int.Defs
import Mathlib.Data.Int.Basic

/-!
# CInt — conversions between the integer types of C

A value of an integer type is its number, an `Int` or a `Nat`; a conversion to a type of
`w` bits wraps around. What fits is not changed.
-/

namespace CInt

/-- Conversion to the signed type of `w` bits. -/
def signed (w : Nat) (n : Int) : Int := n.bmod (2 ^ w)

/-- Conversion to the unsigned type of `w` bits. -/
def unsigned (w : Nat) (n : Int) : Nat := (n % (2 ^ w : Nat)).toNat

variable {w : Nat} {n : Int}

theorem signed_of_fits (hlow : -(2 ^ w : Nat) ≤ n) (hhigh : n < (2 ^ w : Nat)) :
    signed (w + 1) n = n := by
  unfold signed
  rw [Nat.pow_succ]
  apply Int.bmod_eq_of_le <;> omega

theorem unsigned_of_fits (hlow : 0 ≤ n) (hhigh : n < (2 ^ w : Nat)) :
    (unsigned w n : Int) = n := by
  unfold unsigned
  rw [Int.emod_eq_of_lt hlow hhigh, Int.toNat_of_nonneg hlow]

theorem unsigned_natCast {m : Nat} (h : m < 2 ^ w) : unsigned w m = m :=
  Int.ofNat.inj (unsigned_of_fits (Int.natCast_nonneg m) (Int.ofNat_lt.mpr h))

theorem unsigned_lt (w : Nat) (n : Int) : unsigned w n < 2 ^ w := by
  have hpos : (0 : Int) < (2 ^ w : Nat) := Int.natCast_pos.mpr (Nat.two_pow_pos w)
  have hlow := Int.emod_nonneg n (Int.ne_of_gt hpos)
  have hhigh := Int.emod_lt_of_pos n hpos
  unfold unsigned
  omega

/-- A negative number becomes a large one. -/
theorem unsigned_of_neg (hlow : -(2 ^ w : Nat) ≤ n) (hneg : n < 0) :
    (unsigned w n : Int) = 2 ^ w + n := by
  have hpos : (0 : Int) < (2 ^ w : Nat) := Int.natCast_pos.mpr (Nat.two_pow_pos w)
  have hmod : n % (2 ^ w : Nat) = (2 ^ w : Nat) + n := by
    rw [← Int.add_emod_left, Int.emod_eq_of_lt] <;> omega
  unfold unsigned
  rw [hmod, Int.toNat_of_nonneg (by omega)]
  push_cast
  rfl

/-! ## Counters

A counter that is loaded, changed by one and stored has the exact count, wrapped once: the
wraps on the way do not show. Signed overflow is undefined in C; the counters here wrap, as
the addition that a compiler emits for a single load and a single store does. -/

/-- `INT_MIN`. -/
def intMin : Int := -2147483648

/-- `INT_MAX`. -/
def intMax : Int := 2147483647

@[simp] theorem signed_zero (w : Nat) : signed w 0 = 0 := Int.zero_bmod

@[simp] theorem signed_signed (w : Nat) (n : Int) : signed w (signed w n) = signed w n :=
  Int.bmod_bmod

theorem signed_add (n m : Int) : signed w (signed w n + m) = signed w (n + m) :=
  Int.bmod_add_bmod

theorem signed_sub (n m : Int) : signed w (signed w n - m) = signed w (n - m) :=
  Int.bmod_sub_bmod

/-- A step that counts up, or leaves the counter alone. -/
theorem signed_count (b : Bool) (n : Int) :
    (if b then signed w (signed w n + 1) else signed w n) = signed w (n + b.toNat) := by
  cases b with
  | false => simp
  | true => exact signed_add n 1

theorem signed_le_intMax (n : Int) : signed 32 n ≤ intMax := by
  have hlt : signed 32 n < _ := Int.bmod_lt (Nat.two_pow_pos 32)
  unfold intMax
  omega

/-- An `int` is the count itself exactly as long as that is at most `INT_MAX`. -/
theorem signed_eq_self_iff (h : 0 ≤ n) : signed 32 n = n ↔ n ≤ intMax := by
  constructor
  · intro heq
    exact heq ▸ signed_le_intMax n
  · intro hle
    unfold intMax at hle
    exact signed_of_fits (by omega) (by omega)

end CInt
