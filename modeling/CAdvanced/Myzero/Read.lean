import CAdvanced.CInt.Wrap
import Mathlib.Data.UInt
import Mathlib.Logic.Function.Basic

/-!
# Myzero — Read

`read_zero` of `myzero.c` writes zeros to the user, one `put_user` after the other. A
`put_user` fails where the user has no memory that can be written, and says so; nobody looks
at what it says, so the call reports those bytes as well. They are zero all the same if they
have been before.
-/

namespace CAdvanced.Myzero

open CInt

/-- An address of the user. -/
abbrev Address := BitVec 64

/-- What the memory of the user holds. -/
abbrev Memory := Address → UInt8

/-- `EFAULT`. -/
def efault : Int := 14

/-- `put_user(x, p)`: what it returns, and the memory. -/
def putUser (writable : Address → Bool) (x : UInt8) (p : Address) (m : Memory) : Int × Memory :=
  if writable p then (0, Function.update m p x) else (-efault, m)

/-- The address of the byte `i` of the buffer. -/
def byteAt (user : Address) (i : Nat) : Address := user + BitVec.ofNat 64 i

/-- The loop; it needs no more rounds than `count`. -/
def zeroLoop (writable : Address → Bool) (user : Address) (count : Nat) :
    (rounds bytes : Nat) → Memory → Nat × Memory
  | 0, bytes, m => (bytes, m)
  | rounds + 1, bytes, m =>
      if bytes < count then
        zeroLoop writable user count rounds (bytes + 1)
          (putUser writable 0 (byteAt user bytes) m).2
      else (bytes, m)

/-- What a read returns, with `*offset` and the memory. -/
structure Reply where
  ret : Int
  offset : Int
  memory : Memory

/-- `read_zero(file, user, count, offset)`. -/
def readZero (writable : Address → Bool) (user : Address) (count : Nat) (offset : Int)
    (m : Memory) : Reply :=
  let r := zeroLoop writable user count count 0 m
  ⟨signed 64 r.1, signed 64 (offset + r.1), r.2⟩

/-! ## The loop -/

variable {writable : Address → Bool} {user : Address} {count : Nat}

theorem putUser_writable {x : UInt8} {p : Address} {m : Memory} (h : writable p = true) :
    (putUser writable x p m).2 = Function.update m p x :=
  congrArg Prod.snd (if_pos h)

theorem putUser_fails {x : UInt8} {p : Address} {m : Memory} (h : writable p = false) :
    (putUser writable x p m).2 = m :=
  congrArg Prod.snd (if_neg (ne_true_of_eq_false h))

/-- A byte that is zero stays zero. -/
theorem putUser_zero {p a : Address} {m : Memory} (ha : m a = 0) :
    (putUser writable 0 p m).2 a = 0 := by
  rcases hp : writable p with - | -
  · rw [putUser_fails hp, ha]
  · rw [putUser_writable hp]
    by_cases heq : a = p
    · rw [heq, Function.update_self]
    · rw [Function.update_of_ne heq, ha]

/-- All rounds are made. -/
theorem zeroLoop_bytes {rounds bytes : Nat} {m : Memory} (h : bytes + rounds = count) :
    (zeroLoop writable user count rounds bytes m).1 = count := by
  induction rounds generalizing bytes m with
  | zero => exact h
  | succ rounds ih =>
      rw [zeroLoop, if_pos (by omega)]
      exact ih (by omega)

theorem zeroLoop_zero {rounds bytes : Nat} {m : Memory} {a : Address} (ha : m a = 0) :
    (zeroLoop writable user count rounds bytes m).2 a = 0 := by
  induction rounds generalizing bytes m with
  | zero => exact ha
  | succ rounds ih =>
      rw [zeroLoop]
      split
      · exact ih (putUser_zero ha)
      · exact ha

/-- What can be written becomes zero. -/
theorem zeroLoop_written {rounds bytes i : Nat} {m : Memory} (h : bytes + rounds = count)
    (hlow : bytes ≤ i) (hhigh : i < count) (hi : writable (byteAt user i) = true) :
    (zeroLoop writable user count rounds bytes m).2 (byteAt user i) = 0 := by
  induction rounds generalizing bytes m with
  | zero => omega
  | succ rounds ih =>
      rw [zeroLoop, if_pos (by omega)]
      rcases Nat.eq_or_lt_of_le hlow with rfl | hlt
      · apply zeroLoop_zero
        rw [putUser_writable hi, Function.update_self]
      · exact ih (by omega) hlt

/-- What cannot be written is left alone, and so is everything else. -/
theorem zeroLoop_kept {rounds bytes : Nat} {m : Memory} {a : Address}
    (h : ∀ i, bytes ≤ i → i < count → byteAt user i = a → writable a = false) :
    (zeroLoop writable user count rounds bytes m).2 a = m a := by
  induction rounds generalizing bytes m with
  | zero => rfl
  | succ rounds ih =>
      rw [zeroLoop]
      split
      · next hlt =>
        rw [ih fun i hi => h i (by omega)]
        rcases hp : writable (byteAt user bytes) with - | -
        · rw [putUser_fails hp]
        · have hne : a ≠ byteAt user bytes := by
            rintro rfl
            rw [h bytes (Nat.le_refl _) hlt rfl] at hp
            cases hp
          rw [putUser_writable hp, Function.update_of_ne hne]
      · rfl

/-! ## What a read reports -/

variable {offset : Int} {m : Memory}

/-- **What a read should report**: the bytes that it says it has written are zero, `*offset`
has moved on by their number, and nothing outside the buffer has changed. -/
structure Reports (user : Address) (count : Nat) (offset : Int) (m : Memory) (r : Reply) :
    Prop where
  zeros : ∀ i : Nat, i < r.ret → r.memory (byteAt user i) = 0
  offset : r.offset = signed 64 (offset + r.ret)
  frame : ∀ a, (∀ i, i < count → byteAt user i ≠ a) → r.memory a = m a

/-- The return value has the wrong sign when the buffer takes half the address space. -/
theorem signed_count (h : count < 2 ^ 64) :
    signed 64 count = if count < 2 ^ 63 then (count : Int) else (count : Int) - 2 ^ 64 := by
  unfold signed
  rw [Int.bmod_def]
  split <;> split <;> omega

theorem signed_add_signed (k n : Int) : signed 64 (k + signed 64 n) = signed 64 (k + n) := by
  unfold signed
  exact Int.add_bmod_bmod

/-- **`read_zero` reports what it has written** just when every byte of the buffer can be
written or is zero beforehand. (A count for which the return value would be negative, which
the kernel does not pass to a driver, makes no promise.) -/
theorem read_zero_iff (hcount : count < 2 ^ 64) :
    Reports user count offset m (readZero writable user count offset m)
      ↔ 2 ^ 63 ≤ count
        ∨ ∀ i, i < count → writable (byteAt user i) = true ∨ m (byteAt user i) = 0 := by
  have hbytes : (zeroLoop writable user count count 0 m).1 = count :=
    zeroLoop_bytes (Nat.zero_add count)
  have hret : (readZero writable user count offset m).ret = signed 64 count := by
    rw [readZero, hbytes]
  have hoffset : (readZero writable user count offset m).offset = signed 64 (offset + count) := by
    rw [readZero, hbytes]
  constructor
  · intro h
    by_contra hno
    obtain ⟨hsmall, hbad⟩ := not_or.mp hno
    refine hbad fun i hi => ?_
    have hzero := h.zeros i (by rw [hret, signed_count hcount, if_pos (by omega)]; omega)
    rcases hw : writable (byteAt user i) with - | -
    · have hkept : (readZero writable user count offset m).memory (byteAt user i)
          = m (byteAt user i) := zeroLoop_kept fun _ _ _ _ => hw
      exact .inr (hkept.symm.trans hzero)
    · exact .inl rfl
  · intro h
    refine ⟨fun i hi => ?_, ?_, fun a ha => zeroLoop_kept fun i _ hi heq => absurd heq (ha i hi)⟩
    · rw [hret, signed_count hcount] at hi
      rcases h with hlarge | hall
      · rw [if_neg (by omega)] at hi
        omega
      · have hlt : i < count := by
          split at hi <;> omega
        rcases hall i hlt with hw | hzero
        · exact zeroLoop_written (Nat.zero_add count) (Nat.zero_le i) hlt hw
        · exact zeroLoop_zero hzero
    · rw [hoffset, hret, signed_add_signed]

/-- Two bytes that can be written. -/
theorem read_zero_iff_written :
    Reports 4096 2 0 (fun _ => 7) (readZero (fun _ => true) 4096 2 0 fun _ => 7) :=
  (read_zero_iff (by decide)).mpr (.inr fun _ _ => .inl rfl)

/-- A byte that cannot be written, and is not zero, is reported as well. -/
theorem not_read_zero :
    ¬ ∀ (writable : Address → Bool) (user : Address) (count : Nat) (offset : Int) (m : Memory),
      count < 2 ^ 64 → Reports user count offset m (readZero writable user count offset m) := by
  intro hall
  have h := hall (fun _ => false) 4096 1 0 (fun _ => 7) (by decide)
  have hzero := h.zeros 0 (by decide +kernel)
  exact absurd hzero (by decide +kernel)

end CAdvanced.Myzero
