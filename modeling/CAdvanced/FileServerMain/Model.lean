import CAdvanced.Heap.Lifetime
import CAdvanced.Interleave.Threads

/-!
# FileServerMain — Model

What `file-server.c` and `file-server-signals.c` share: `createServer`, the body of the
main loop, and `readFromFile`. One step is one call of the kernel, one read or write of
`server->descriptor`, or one call of `cleanExit` or of the function that reads the file;
`printf`, `bzero`, `setsockopt` and the writes to the client change nothing that is
modelled and belong to the step they stand next to.

What the kernel and the file system answer is part of the run. So is what a read of
`*server` finds after the record has been freed: the `k`-th such read finds `junk k`.
-/

namespace CAdvanced.FileServerMain

open Interleave Heap

/-- A descriptor that `accept` has returned, and how often it has been closed since. -/
structure Accepted where
  descriptor : Int
  closes : Nat
  deriving DecidableEq, Repr

/-- The state of a server: `*server`, of which `descriptor` is what is read again, the
variables of `main` that decide something, the accepted descriptors, newest first, and
what the file has of its own. -/
structure State (ε : Type) where
  server : Cell Int
  readfds : List Int
  notdone : Bool
  clientFiledescriptor : Int
  accepted : List Accepted
  own : ε
  deriving DecidableEq, Repr

/-- What a step is answered, should it ask: the result of a kernel call, the ready
descriptors of a `select`, and what reading a file comes to. -/
structure Answer (α : Type) where
  rc : Int
  ready : List Int
  file : α
  deriving DecidableEq, Repr

/-- What the files do differently: what `cleanExit` frees besides `server`, and how a file
is read (`true` unless NULL is returned). -/
structure ServerCode (ε α : Type) where
  cleanExit : ε → ε
  readFile : α → ε → Bool × ε

/-- Counts a `close` of the descriptor `d`, which stands for the newest with this number. -/
def closeDescriptor (d : Int) : List Accepted → List Accepted
  | [] => []
  | a :: as =>
      if a.descriptor = d then { a with closes := a.closes + 1 } :: as
      else a :: closeDescriptor d as

section Operations
variable {ε α : Type}

/-- `close`. -/
def State.close (s : State ε) (d : Int) : State ε :=
  { s with accepted := closeDescriptor d s.accepted }

/-- A read of `server->descriptor`, as a use of the record. -/
def State.touch (s : State ε) : State ε := { s with server := s.server.use }

/-- `cleanExit(server)`; it no longer exits. -/
def State.cleanExit (k : ServerCode ε α) (s : State ε) : State ε :=
  { s with server := s.server.free, own := k.cleanExit s.own }

end Operations

/-! ## `createServer` -/

/-- The program points of `createServer`. -/
inductive CreateServer where
  | socket
  | bind
  | listen
  deriving DecidableEq, Repr

/-- `createServer`, one step, with the value it returns at the end. -/
def createServer {ε α : Type} (a : Answer α) (s : State ε) :
    CreateServer → State ε × (CreateServer ⊕ Int)
  | .socket => ({ s with server := s.server.store a.rc },
      if a.rc < 0 then .inr (-1) else .inl .bind)
  | .bind => (s.touch, if a.rc < 0 then .inr (-1) else .inl .listen)
  | .listen => (s.touch, if a.rc < 0 then .inr (-1) else .inr 0)

/-! ## The body of the main loop -/

/-- The program points of the body of the main loop, from `FD_ZERO` on. -/
inductive Body where
  | fdSet
  | selectArg
  | select
  | selectClose
  | selectExit
  | testStdin
  | testServer
  | accept
  | acceptClose
  | acceptExit
  | read
  | readClose
  | readExit
  | readFile
  | nullClose
  | nullExit
  | close
  deriving DecidableEq, Repr

/-- The body of the main loop, one step. -/
def body {ε α : Type} (k : ServerCode ε α) (junk : Nat → Int) (a : Answer α) (s : State ε) :
    Body → State ε × Ctl Body
  | .fdSet => ({ s.touch with readfds := [s.server.load junk] }, .goto .selectArg)
  | .selectArg => ({ s.touch with readfds := 0 :: s.readfds }, .goto .select)
  -- on an error the sets stay as they are
  | .select =>
      if a.rc < 0 then (s, .goto .selectClose)
      else ({ s with readfds := s.readfds.filter (· ∈ a.ready) }, .goto .testStdin)
  | .selectClose => (s.touch.close (s.server.load junk), .goto .selectExit)
  | .selectExit => (s.cleanExit k, .goto .testStdin)
  | .testStdin =>
      ({ s with notdone := if 0 ∈ s.readfds then false else s.notdone }, .goto .testServer)
  | .testServer =>
      (s.touch, if s.server.load junk ∈ s.readfds then .goto .accept else .ret)
  | .accept =>
      if a.rc < 0 then ({ s.touch with clientFiledescriptor := a.rc }, .goto .acceptClose)
      else
        ({ s.touch with clientFiledescriptor := a.rc, accepted := ⟨a.rc, 0⟩ :: s.accepted },
          .goto .read)
  | .acceptClose => (s.close s.clientFiledescriptor, .goto .acceptExit)
  | .acceptExit => (s.cleanExit k, .goto .read)
  | .read => (s, .goto (if a.rc < 0 then .readClose else .readFile))
  | .readClose => (s.close s.clientFiledescriptor, .goto .readExit)
  | .readExit => (s.cleanExit k, .goto .readFile)
  | .readFile =>
      let r := k.readFile a.file s.own
      ({ s with own := r.2 }, .goto (if r.1 then .close else .nullClose))
  | .nullClose => (s.close s.clientFiledescriptor, .goto .nullExit)
  | .nullExit => (s.cleanExit k, .goto .close)
  | .close => (s.close s.clientFiledescriptor, .ret)

/-! ## `readFromFile` -/

/-- What a call of `readFromFile` holds when it returns: the open FILEs and the buffers
that nobody has freed, counted over the whole run. -/
structure Resources where
  files : Nat
  buffers : Nat
  deriving DecidableEq, Repr

/-- What the calls of `readFromFile` come to: whether `fopen` finds the file, what is in
it, whether `malloc` has room for it, and how many of its bytes `fread` delivers. -/
structure FileCall where
  opened : Bool
  content : List UInt8
  allocated : Bool
  delivered : Nat
  deriving DecidableEq, Repr

/-- `readFromFile`. -/
def readFromFile (f : FileCall) (r : Resources) : Option (List UInt8) × Resources :=
  if f.opened then
    let r := { r with files := r.files + 1 }
    if f.allocated then
      let r := { r with buffers := r.buffers + 1 }
      if f.delivered = f.content.length then (some f.content, { r with files := r.files - 1 })
      else (none, r)
    else (none, r)
  else (none, r)

/-- `fopen`, `malloc` and `fread` succeed. -/
def FileCall.Succeeds (f : FileCall) : Prop :=
  f.opened = true ∧ f.allocated = true ∧ f.delivered = f.content.length

instance (f : FileCall) : Decidable f.Succeeds := inferInstanceAs (Decidable (_ ∧ _ ∧ _))

/-- The FILE has been closed; the buffer is the caller's. -/
theorem readFromFile_of_succeeds {f : FileCall} (h : f.Succeeds) (r : Resources) :
    readFromFile f r = (some f.content, { r with buffers := r.buffers + 1 }) := by
  obtain ⟨hopened, hallocated, hdelivered⟩ := h
  unfold readFromFile
  rw [if_pos hopened]
  dsimp only
  rw [if_pos hallocated, if_pos hdelivered]
  rfl

theorem readFromFile_of_fails {f : FileCall} (h : ¬ f.Succeeds) (r : Resources) :
    (readFromFile f r).1 = none := by
  unfold readFromFile
  dsimp only
  split
  · next hopened =>
    split
    · next hallocated =>
      split
      · next hdelivered => exact absurd ⟨hopened, hallocated, hdelivered⟩ h
      · rfl
    · rfl
  · rfl

theorem readFromFile_isSome (f : FileCall) (r : Resources) :
    (readFromFile f r).1.isSome = true ↔ f.Succeeds := by
  by_cases h : f.Succeeds
  · rw [readFromFile_of_succeeds h]
    exact iff_of_true rfl h
  · rw [readFromFile_of_fails h]
    exact iff_of_false nofun h

theorem readFromFile_of_not_opened {f : FileCall} (h : f.opened = false) (r : Resources) :
    (readFromFile f r).2 = r := by
  unfold readFromFile
  rw [h]
  rfl

/-- A file that is opened leaves something behind: its FILE, or the buffer, or both. -/
theorem readFromFile_of_opened {f : FileCall} (h : f.opened = true) (r : Resources) :
    r.files + r.buffers < (readFromFile f r).2.files + (readFromFile f r).2.buffers := by
  unfold readFromFile
  rw [if_pos h]
  dsimp only
  split
  · split
    · dsimp only
      omega
    · dsimp only
      omega
  · dsimp only
    omega

end CAdvanced.FileServerMain
