import Mathlib.Algebra.GroupWithZero.Nat
import Mathlib.Algebra.Ring.Int.Defs
import Mathlib.Data.List.Basic
import Mathlib.Data.List.Induction

/-!
# MybufferSync — Model

The character device of `mybuffer_sync.c`: `driver_read` and `driver_write`, a
buffer of `MAX_BUFFER_SIZE` bytes and the two counters. A call is one function
here, run alone from its first line to its return, so a wait whose condition is
false can only end with a signal. The bytes are of an arbitrary type: the driver
copies them and never looks at them.
-/

namespace CAdvanced.MybufferSync

/-- `MAX_BUFFER_SIZE`. -/
def maxBufferSize : Nat := 32

/-- `EAGAIN`. -/
def eagain : Int := 11

/-- `ERESTARTSYS`. -/
def erestartsys : Int := 512

/-- `kernelmem`, `bytes_available` and `bytes_that_can_be_written`. -/
structure Mybuffer (β : Type) where
  kernelmem : List β
  bytesAvailable : Int
  bytesThatCanBeWritten : Int
  deriving DecidableEq, Repr

/-- What a call gets of its open file: whether `f_flags` has `O_NONBLOCK`, and
`*offset`. -/
structure File where
  nonblock : Bool
  offset : Int
  deriving DecidableEq, Repr

/-- What a call leaves behind: the device, what it returns, the bytes that it
copied to the user, and `*offset`. -/
structure Reply (β : Type) where
  device : Mybuffer β
  ret : Int
  delivered : List β
  offset : Int
  deriving DecidableEq, Repr

section Driver
variable {β : Type}

/-- `READ_POSSIBLE`. -/
def Mybuffer.ReadPossible (s : Mybuffer β) : Prop := s.bytesAvailable ≠ 0

instance (s : Mybuffer β) : Decidable s.ReadPossible := inferInstanceAs (Decidable (_ ≠ _))

/-- `WRITE_POSSIBLE`. -/
def Mybuffer.WritePossible (s : Mybuffer β) : Prop := s.bytesThatCanBeWritten ≠ 0

instance (s : Mybuffer β) : Decidable s.WritePossible := inferInstanceAs (Decidable (_ ≠ _))

/-- The cast `(size_t)` of an `int`. -/
def sizeT (n : Int) : Nat := (n % 2 ^ 64).toNat

/-- `wait_event_interruptible`, with nobody else to make the condition true. -/
def waitEventInterruptible (condition : Prop) [Decidable condition] : Int :=
  if condition then 0 else -erestartsys

/-- `copy_to_user` of the first `n` bytes, the last `refused` of which the
memory of the user does not take: what arrives, and what is returned. -/
def copyToUser (kernelmem : List β) (n refused : Nat) : List β × Nat :=
  (kernelmem.take (n - refused), min n refused)

/-- `copy_from_user` of the first `n` bytes of `buffer` to the start of
`kernelmem`, the last `refused` of which cannot be read: they become zero. -/
def copyFromUser [Zero β] (kernelmem buffer : List β) (n refused : Nat) : List β × Nat :=
  (buffer.take (n - refused) ++ List.replicate (min n refused) 0 ++ kernelmem.drop n,
    min n refused)

/-- `driver_read(instance, buffer, max_bytes_to_read, offset)`. -/
def driverRead (s : Mybuffer β) (file : File) (maxBytesToRead refused : Nat) : Reply β :=
  if ¬ s.ReadPossible ∧ file.nonblock then ⟨s, -eagain, [], file.offset⟩
  else if waitEventInterruptible s.ReadPossible ≠ 0 then ⟨s, -erestartsys, [], file.offset⟩
  else
    let toCopy := min (sizeT s.bytesAvailable) maxBytesToRead
    let copy := copyToUser s.kernelmem toCopy refused
    let copied := toCopy - copy.2
    { device := { s with
        bytesAvailable := s.bytesAvailable - copied
        bytesThatCanBeWritten := s.bytesThatCanBeWritten + copied }
      ret := copied
      delivered := copy.1
      offset := file.offset + copied }

/-- `driver_write(instance, buffer, max_bytes_to_write, offset)`, where `buffer`
has `max_bytes_to_write` bytes. -/
def driverWrite [Zero β] (s : Mybuffer β) (file : File) (buffer : List β) (refused : Nat) :
    Reply β :=
  if ¬ s.WritePossible ∧ file.nonblock then ⟨s, -eagain, [], file.offset⟩
  else if waitEventInterruptible s.WritePossible ≠ 0 then ⟨s, -erestartsys, [], file.offset⟩
  else
    let toCopy := min (sizeT s.bytesThatCanBeWritten) buffer.length
    let copy := copyFromUser s.kernelmem buffer toCopy refused
    let copied := toCopy - copy.2
    { device := {
        kernelmem := copy.1
        bytesThatCanBeWritten := s.bytesThatCanBeWritten - copied
        bytesAvailable := s.bytesAvailable + copied }
      ret := copied
      delivered := []
      offset := file.offset + copied }

@[simp] theorem waitEventInterruptible_ne_zero (p : Prop) [Decidable p] :
    waitEventInterruptible p ≠ 0 ↔ ¬ p := by
  unfold waitEventInterruptible
  split <;> simp_all [erestartsys]

/-- A read of an empty device. -/
theorem driverRead_empty {s : Mybuffer β} (h : ¬ s.ReadPossible) (file : File)
    (n refused : Nat) :
    driverRead s file n refused
      = ⟨s, if file.nonblock then -eagain else -erestartsys, [], file.offset⟩ := by
  unfold driverRead
  by_cases hfile : file.nonblock <;> simp [h, hfile]

/-- A write to a full device. -/
theorem driverWrite_full [Zero β] {s : Mybuffer β} (h : ¬ s.WritePossible) (file : File)
    (buffer : List β) (refused : Nat) :
    driverWrite s file buffer refused
      = ⟨s, if file.nonblock then -eagain else -erestartsys, [], file.offset⟩ := by
  unfold driverWrite
  by_cases hfile : file.nonblock <;> simp [h, hfile]

/-- A read of a device that is not empty. -/
theorem driverRead_possible {s : Mybuffer β} (h : s.ReadPossible) (file : File)
    (n refused : Nat) :
    driverRead s file n refused =
      let k := min (sizeT s.bytesAvailable) n - refused
      ⟨⟨s.kernelmem, s.bytesAvailable - k, s.bytesThatCanBeWritten + k⟩, k,
        s.kernelmem.take k, file.offset + k⟩ := by
  unfold driverRead
  simp [h, copyToUser]
  omega

/-- A write to a device that is not full. -/
theorem driverWrite_possible [Zero β] {s : Mybuffer β} (h : s.WritePossible) (file : File)
    (buffer : List β) (refused : Nat) :
    driverWrite s file buffer refused =
      let n := min (sizeT s.bytesThatCanBeWritten) buffer.length
      let k := n - refused
      ⟨⟨(copyFromUser s.kernelmem buffer n refused).1, s.bytesAvailable + k,
        s.bytesThatCanBeWritten - k⟩, k, [], file.offset + k⟩ := by
  unfold driverWrite
  simp [h, copyFromUser]
  omega

/-- The device that `template_init` leaves, with its `kcalloc`. -/
def templateInit [Zero β] : Mybuffer β where
  kernelmem := List.replicate maxBufferSize 0
  bytesAvailable := 0
  bytesThatCanBeWritten := maxBufferSize

end Driver

/-! ## Calls one after the other -/

/-- A call of the driver, by a user whose memory is all there. -/
inductive Call (β : Type) where
  | read (file : File) (maxBytesToRead : Nat)
  | write (file : File) (buffer : List β)
  deriving DecidableEq, Repr

/-- The device, with the bytes that the writes have reported as accepted and
those that the reads have delivered. -/
structure Log (β : Type) where
  device : Mybuffer β
  accepted : List β
  delivered : List β
  deriving DecidableEq, Repr

section Runs
variable {β : Type} [Zero β]

/-- One call. -/
def Log.call (s : Log β) : Call β → Log β
  | .read file maxBytesToRead =>
      let r := driverRead s.device file maxBytesToRead 0
      { s with device := r.device, delivered := s.delivered ++ r.delivered }
  | .write file buffer =>
      let r := driverWrite s.device file buffer 0
      { s with device := r.device, accepted := s.accepted ++ buffer.take r.ret.toNat }

/-- The calls, from the freshly loaded module on. -/
def run (calls : List (Call β)) : Log β := calls.foldl Log.call ⟨templateInit, [], []⟩

theorem run_snoc (calls : List (Call β)) (c : Call β) :
    run (calls ++ [c]) = (run calls).call c := by
  rw [run, List.foldl_append]
  rfl

end Runs

/-! ## The bytes are only copied -/

section Map
variable {β γ : Type}

/-- The same device, with other bytes. -/
def Mybuffer.map (f : β → γ) (s : Mybuffer β) : Mybuffer γ :=
  ⟨s.kernelmem.map f, s.bytesAvailable, s.bytesThatCanBeWritten⟩

/-- The same call, with other bytes. -/
def Call.map (f : β → γ) : Call β → Call γ
  | .read file n => .read file n
  | .write file buffer => .write file (buffer.map f)

/-- The same history, with other bytes. -/
def Log.map (f : β → γ) (s : Log β) : Log γ :=
  ⟨s.device.map f, s.accepted.map f, s.delivered.map f⟩

/-- The same reply, with other bytes. -/
def Reply.map (f : β → γ) (r : Reply β) : Reply γ :=
  ⟨r.device.map f, r.ret, r.delivered.map f, r.offset⟩

variable [Zero β] [Zero γ] {f : β → γ}

omit [Zero β] [Zero γ] in
theorem driverRead_map (f : β → γ) (s : Mybuffer β) (file : File) (n refused : Nat) :
    driverRead (s.map f) file n refused = (driverRead s file n refused).map f := by
  by_cases h : s.ReadPossible
  · have hmap : (s.map f).ReadPossible := h
    rw [driverRead_possible h, driverRead_possible hmap]
    simp [Reply.map, Mybuffer.map, List.map_take]
  · have hmap : ¬ (s.map f).ReadPossible := h
    rw [driverRead_empty h, driverRead_empty hmap]
    rfl

theorem driverWrite_map (hf : f 0 = 0) (s : Mybuffer β) (file : File) (buffer : List β)
    (refused : Nat) :
    driverWrite (s.map f) file (buffer.map f) refused
      = (driverWrite s file buffer refused).map f := by
  by_cases h : s.WritePossible
  · have hmap : (s.map f).WritePossible := h
    rw [driverWrite_possible h, driverWrite_possible hmap]
    simp [Reply.map, Mybuffer.map, copyFromUser, List.map_take, List.map_drop, hf]
  · have hmap : ¬ (s.map f).WritePossible := h
    rw [driverWrite_full h, driverWrite_full hmap]
    rfl

theorem Log.call_map (hf : f 0 = 0) (s : Log β) (c : Call β) :
    (s.map f).call (c.map f) = (s.call c).map f := by
  cases c with
  | read file n =>
      simp [Log.call, Call.map, Log.map, driverRead_map, Reply.map]
  | write file buffer =>
      simp [Log.call, Call.map, Log.map, driverWrite_map hf, Reply.map]

/-- **The driver does not look at the bytes.** -/
theorem run_map (hf : f 0 = 0) (calls : List (Call β)) :
    run (calls.map (Call.map f)) = (run calls).map f := by
  induction calls using List.reverseRecOn with
  | nil => simp [run, Log.map, Mybuffer.map, templateInit, hf]
  | append_singleton calls c ih =>
      rw [List.map_append, List.map_singleton, run_snoc, run_snoc, ih, Log.call_map hf]

end Map

end CAdvanced.MybufferSync
