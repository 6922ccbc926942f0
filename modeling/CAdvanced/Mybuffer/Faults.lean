import CAdvanced.Mybuffer.Reads

/-!
# Mybuffer — Faults

A write of which `copy_from_user` copies nothing. `driver_read` returns `-EFAULT` when its
copy fails; `driver_write` has no such branch, and stores 0 as the length of what it "actually
wrote". So the writer is told 0, and whatever was in the buffer is gone: the next reader
waits.
-/

namespace CAdvanced.Mybuffer

variable {β : Type} {b b' : Buffer β}

/-- No read can tell `b'` from `b`: it copies the same bytes, returns the same, and waits in
the same cases. -/
def Unnoticed (b b' : Buffer β) : Prop :=
  ∀ offset count (e : Env β), driverRead b' offset count e = driverRead b offset count e

/-- `copy_from_user` copies no byte of the write. -/
def CopiesNothing (user : List β) (refused : Nat) : Prop :=
  min user.length maxBufferSize ≤ refused

instance (user : List β) (refused : Nat) : Decidable (CopiesNothing user refused) :=
  inferInstanceAs (Decidable (_ ≤ _))

/-- The write reports an error and changes nothing. -/
def FailsCleanly [Zero β] (b : Buffer β) (user : List β) (refused : Nat) : Prop :=
  ((driverWrite b user refused).length : Int) < 0 ∧ Unnoticed b (driverWrite b user refused)

/-- A read of an empty buffer waits for a write or a signal. -/
theorem driverRead_of_not_filled (h : ¬ b.Filled) (offset : Int) (count : Nat) (e : Env β) :
    driverRead b offset count e
      = if e.signal then some ⟨-erestartsys, [], offset⟩ else none := by
  rw [driverRead, if_neg h]

/-- A read of a buffer with something in it does not wait. -/
theorem driverRead_isSome (h : b.Filled) (offset : Int) (count : Nat) (e : Env β) :
    (driverRead b offset count e).isSome = true := by
  rw [driverRead, if_pos h]
  dsimp only
  split <;> rfl

/-- A buffer that has become empty is noticed just when it was not empty before. -/
theorem unnoticed_iff [Zero β] (h' : ¬ b'.Filled) : Unnoticed b b' ↔ ¬ b.Filled := by
  constructor
  · intro hsame hfilled
    -- a reader without a signal
    have hread := hsame 0 1 ⟨false, 0, fun _ => 0⟩
    rw [driverRead_of_not_filled h'] at hread
    have hsome := driverRead_isSome hfilled 0 1 ⟨false, 0, fun _ => 0⟩
    rw [← hread] at hsome
    cases hsome
  · intro h offset count e
    rw [driverRead_of_not_filled h', driverRead_of_not_filled h]

theorem driverWrite_nothing [Zero β] (b : Buffer β) {user : List β} {refused : Nat}
    (h : CopiesNothing user refused) : (driverWrite b user refused).length = 0 := by
  simp only [driverWrite, copyFromUser]
  rw [Nat.min_eq_left h, Nat.sub_self]

/-- **A failed write reports no error, ever**: it returns 0, and the reads that follow notice
it unless the buffer was empty before. -/
theorem failed_write_never [Zero β] (b : Buffer β) {user : List β} {refused : Nat}
    (h : CopiesNothing user refused) :
    ¬ FailsCleanly b user refused
      ∧ (driverWrite b user refused).length = 0
      ∧ (Unnoticed b (driverWrite b user refused) ↔ ¬ b.Filled) := by
  have hzero := driverWrite_nothing b h
  refine ⟨fun hclean => ?_, hzero, unnoticed_iff fun hfilled => hfilled hzero⟩
  rw [FailsCleanly, hzero] at hclean
  exact absurd hclean.1 (Int.lt_irrefl 0)

/-- Three bytes are stored; the write of one byte from a bad address. -/
theorem failed_write_never_stored :
    CopiesNothing [(7 : Nat)] 1
      ∧ ¬ FailsCleanly ⟨[1, 2, 3] ++ List.replicate 509 0, 3⟩ [(7 : Nat)] 1 :=
  ⟨by decide, (failed_write_never _ (by decide)).1⟩

theorem not_failsCleanly :
    ¬ ∀ (b : Buffer Nat) (user : List Nat) (refused : Nat), 0 < user.length →
      CopiesNothing user refused → FailsCleanly b user refused := by
  intro hall
  have hclean := hall ⟨[1, 2, 3] ++ List.replicate 509 0, 3⟩ [7] 1 (by decide) (by decide)
  exact absurd hclean.1 (by decide +kernel)

end CAdvanced.Mybuffer
