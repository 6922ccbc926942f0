import CAdvanced.Interleave.Threads
import CAdvanced.Interleave.WaitQueue
import CAdvanced.Mybuffer.Model

/-!
# Mybuffer — Concurrent

The same driver under calls that run at the same time. A step is one step of the wait, one
copy, or one load or store of `buffer->length`; the local variables travel in the program
point. There is no lock, so `driver_read` may load the length and copy while a
`driver_write` stands between its copy and its store, and the other way round.

Each call comes with an instance of its own, whose `*offset` nobody else uses. What the
copies refuse is a parameter of the two functions; in `program` they refuse nothing.
-/

namespace CAdvanced.Mybuffer.Concurrent

open Interleave CInt

/-- What the calls share. -/
structure Shared (β ι : Type) where
  buffer : Buffer β
  wqRead : WaitQueue ι

/-- The program points of `driver_read`. -/
inductive ReadPc where
  | wait (p : WaitPc)
  | loadLength
  | copyToUser (toCopy : Int)
  deriving DecidableEq, Repr

/-- The program points of `driver_write`. -/
inductive WritePc where
  | copyFromUser
  | storeLength (toCopy notCopied : Nat)
  | wakeUp (ret : Nat)
  deriving DecidableEq, Repr

/-- A call, with the `*offset` of its instance. -/
inductive Call (β : Type) where
  | read (offset : Int) (count : Nat)
  | write (user : List β)
  deriving DecidableEq, Repr

/-- Where a thread stands: between two calls or in one of them. -/
inductive Pc (β : Type) where
  | idle
  | read (offset : Int) (count : Nat) (p : ReadPc)
  | write (user : List β) (p : WritePc)
  deriving DecidableEq, Repr

/-- A thread: the calls it has still to make, what its reads have returned, the last one
first, and what its writes have. -/
structure Worker (β : Type) where
  pc : Pc β
  calls : List (Call β)
  replies : List (Reply β)
  written : List Nat
  deriving DecidableEq, Repr

/-- Who moves, whether a signal is pending, and what the memory behind the buffer holds. -/
structure Move (β ι : Type) where
  tid : ι
  signal : Bool
  beyond : Nat → β

section Code
variable {β ι : Type} [DecidableEq ι]

/-- `driver_read(instance, user, count, offset)`, one step of thread `i`: to a program
point, or back with the reply. -/
def driverRead (i : ι) (signal : Bool) (beyond : Nat → β) (refused : Nat) (offset : Int)
    (count : Nat) (s : Shared β ι) : ReadPc → Option (Shared β ι × (ReadPc ⊕ Reply β))
  | .wait p => (waitEvent i s.buffer.Filled signal s.wqRead p).map fun r =>
      ({ s with wqRead := r.1 },
        r.2.resume (fun p => .inl (.wait p)) (.inl .loadLength) (.inr ⟨-erestartsys, [], offset⟩))
  | .loadLength => some (s, .inl (.copyToUser (toCopy s.buffer.length offset count)))
  | .copyToUser n =>
      let copy := Mybuffer.copyToUser (s.buffer.memory beyond) (unsigned 64 n) refused
      some (s, .inr (if copy.2 ≠ 0 then ⟨-efault, copy.1, offset⟩
        else ⟨n, copy.1, signed 64 (offset + n)⟩))

omit [DecidableEq ι] in
/-- `driver_write(instance, user, count, offs)`, where `user` has `count` bytes, one step:
to a program point, or back with what it returns. -/
def driverWrite [Zero β] (refused : Nat) (user : List β) (s : Shared β ι) :
    WritePc → Shared β ι × (WritePc ⊕ Nat)
  | .copyFromUser =>
      let toCopy := min user.length maxBufferSize
      let copy := Mybuffer.copyFromUser s.buffer.buffer user toCopy refused
      ({ s with buffer := { s.buffer with buffer := copy.1 } }, .inl (.storeLength toCopy copy.2))
  | .storeLength toCopy notCopied =>
      ({ s with buffer := { s.buffer with length := toCopy - notCopied } },
        .inl (.wakeUp (toCopy - notCopied)))
  | .wakeUp ret => ({ s with wqRead := s.wqRead.wakeUp }, .inr ret)

variable [Zero β]

/-- One step of thread `i`. -/
def worker (i : ι) (signal : Bool) (beyond : Nat → β) (s : Shared β ι) :
    Worker β → Option (Shared β ι × Worker β)
  | ⟨.idle, [], _, _⟩ => none
  | ⟨.idle, .read offset count :: calls, replies, written⟩ =>
      some (s, ⟨.read offset count (.wait .test), calls, replies, written⟩)
  | ⟨.idle, .write user :: calls, replies, written⟩ =>
      some (s, ⟨.write user .copyFromUser, calls, replies, written⟩)
  | ⟨.read offset count p, calls, replies, written⟩ =>
      (driverRead i signal beyond 0 offset count s p).map fun r =>
        (r.1, match r.2 with
          | .inl p => ⟨.read offset count p, calls, replies, written⟩
          | .inr reply => ⟨.idle, calls, reply :: replies, written⟩)
  | ⟨.write user p, calls, replies, written⟩ =>
      let r := driverWrite 0 user s p
      some (r.1, match r.2 with
        | .inl p => ⟨.write user p, calls, replies, written⟩
        | .inr ret => ⟨.idle, calls, replies, ret :: written⟩)

/-- The freshly loaded module, and threads with the given calls to make. -/
def initial (calls : ι → List (Call β)) : Conf ι (Shared β ι) (Worker β) :=
  ⟨⟨⟨List.replicate maxBufferSize 0, 0⟩, fun _ => false⟩, fun i => ⟨.idle, calls i, [], []⟩⟩

/-- The module and its users. -/
def program (calls : ι → List (Call β)) :
    System (Conf ι (Shared β ι) (Worker β)) (Move β ι) :=
  ⟨initial calls, fun m c => c.step (worker m.tid m.signal m.beyond) m.tid⟩

end Code
end CAdvanced.Mybuffer.Concurrent
