import CAdvanced.CInt.Wrap
import CAdvanced.Interleave.System
import Mathlib.Algebra.GroupWithZero.Nat

/-!
# Mybuffer — Model

The character device of `mybuffer.c`: one buffer of `MAX_BUFFER_SIZE` bytes with the length
of what the last write has left in it, and any number of open instances, each with its own
`*offset`. A call is one step. The bytes are of an arbitrary type, since the driver only
copies them.

A copy that goes on behind the buffer finds there whatever the kernel keeps there; that is
part of the call. `ModInit` allocates 8 bytes, the size of a pointer, for the 16 bytes of the
`mybuffer_t`: its `length` lies behind what has been asked for. Here that word belongs to the
driver alone, as it does where `kmalloc` gives out no less than 16 bytes.
-/

namespace CAdvanced.Mybuffer

open Interleave CInt

/-- `MAX_BUFFER_SIZE`. -/
def maxBufferSize : Nat := 512

/-- `MAX_RW_COUNT`: the kernel passes no larger `count` to a driver. -/
def maxRwCount : Nat := 0x7ffff000

/-- `EFAULT`. -/
def efault : Int := 14

/-- `ERESTARTSYS`. -/
def erestartsys : Int := 512

/-- `mybuffer_t`. -/
structure Buffer (β : Type) where
  buffer : List β
  length : Nat
  deriving DecidableEq, Repr

/-- What the environment decides about a read: whether a signal is pending, how many bytes
the memory of the user refuses, and what the memory behind the buffer holds. -/
structure Env (β : Type) where
  signal : Bool
  refused : Nat
  beyond : Nat → β

/-- What a read returns, with the bytes that it has copied to the user, and `*offset`. -/
structure Reply (β : Type) where
  ret : Int
  delivered : List β
  offset : Int
  deriving DecidableEq, Repr

section Driver
variable {β : Type}

/-- `BUFFER_FILLED`. -/
def Buffer.Filled (b : Buffer β) : Prop := b.length ≠ 0

instance (b : Buffer β) : Decidable b.Filled := inferInstanceAs (Decidable (_ ≠ _))

/-- The memory from the start of the buffer on. -/
def Buffer.memory (b : Buffer β) (beyond : Nat → β) (k : Nat) : β :=
  (b.buffer[k]?).getD (beyond (k - b.buffer.length))

/-- `copy_to_user` of the first `n` bytes, the last `refused` of which the memory of the
user does not take: what arrives, and what is returned. -/
def copyToUser (memory : Nat → β) (n refused : Nat) : List β × Nat :=
  ((List.range (n - refused)).map memory, min n refused)

/-- `copy_from_user` of the first `n` bytes of `user` to the start of `buffer`, the last
`refused` of which cannot be read: they become zero. -/
def copyFromUser [Zero β] (buffer user : List β) (n refused : Nat) : List β × Nat :=
  (user.take (n - refused) ++ List.replicate (min n refused) 0 ++ buffer.drop n, min n refused)

/-- `to_copy` of a read: an `int`, from an unsigned difference. -/
def toCopy (length : Nat) (offset : Int) (count : Nat) : Int :=
  signed 32 (min (unsigned 64 (length - offset)) count : Nat)

/-- `driver_read(instance, user, count, offset)`; it waits while the buffer is empty. -/
def driverRead (b : Buffer β) (offset : Int) (count : Nat) (e : Env β) : Option (Reply β) :=
  if b.Filled then
    let n := toCopy b.length offset count
    let copy := copyToUser (b.memory e.beyond) (unsigned 64 n) e.refused
    if copy.2 ≠ 0 then some ⟨-efault, copy.1, offset⟩
    else some ⟨n, copy.1, signed 64 (offset + n)⟩
  else if e.signal then some ⟨-erestartsys, [], offset⟩
  else none

/-- `driver_write(instance, user, count, offs)`, where `user` has `count` bytes: the buffer
that it leaves, whose length is also what it returns. -/
def driverWrite [Zero β] (b : Buffer β) (user : List β) (refused : Nat) : Buffer β :=
  let toCopy := min user.length maxBufferSize
  let copy := copyFromUser b.buffer user toCopy refused
  ⟨copy.1, toCopy - copy.2⟩

end Driver

/-- A call on the instance `i`. -/
inductive Call (β ι : Type) where
  | read (i : ι) (count : {n : Nat // n ≤ maxRwCount}) (e : Env β)
  | write (i : ι) (user : {bytes : List β // bytes.length ≤ maxRwCount}) (refused : Nat)

/-- The buffer, and the `*offset` of each instance. -/
structure Device (β ι : Type) where
  buffer : Buffer β
  offset : ι → Int

section System
variable {β ι : Type}

/-- The freshly loaded module, and instances just opened. -/
def start [Zero β] : Device β ι := ⟨⟨List.replicate maxBufferSize 0, 0⟩, fun _ => 0⟩

/-- One call. -/
def next [Zero β] [DecidableEq ι] : Call β ι → Device β ι → Option (Device β ι)
  | .read i count e, d =>
      (driverRead d.buffer (d.offset i) count e).map fun r =>
        { d with offset := Function.update d.offset i r.offset }
  | .write _ user refused, d => some { d with buffer := driverWrite d.buffer user refused }

/-- The module and its users. -/
def mybuffer (β ι : Type) [Zero β] [DecidableEq ι] : System (Device β ι) (Call β ι) :=
  ⟨start, next⟩

/-- A read that has returned: the offset at which it was made and the length of what was
stored then, what it returned, and the bytes that it copied to the user. -/
structure Read (β : Type) where
  offset : Int
  length : Nat
  ret : Int
  delivered : List β
  deriving DecidableEq, Repr

/-- The read that a step is. -/
def reads : Call β ι → Device β ι → Option (Read β)
  | .read i count e, d =>
      (driverRead d.buffer (d.offset i) count e).map fun r =>
        ⟨d.offset i, d.buffer.length, r.ret, r.delivered⟩
  | .write .., _ => none

end System
end CAdvanced.Mybuffer
