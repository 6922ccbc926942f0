import CAdvanced.Interleave.Threads
import CAdvanced.Interleave.Sync

/-!
# TwoLockQueue — Model

The two-lock queue of `queue.c` on a memory of nodes. One step is one lock
operation, one `malloc` or `free`, or one read or write of `q->head`, `q->tail`
or a field of a node; local variables travel in the program point, and a test
of a local variable belongs to the read before it.

`malloc` may return any address that is not allocated at that moment, so also
one that was freed, with whatever a node at that place holds; the choice is
part of the schedule. A read or write of a field of a node that is not
allocated has no step.
-/

namespace CAdvanced.TwoLockQueue

open Interleave

/-- `node`. -/
structure Node (α : Type) where
  value : Int
  next : Option α
  deriving DecidableEq, Repr

/-- `queue`, and the memory its nodes lie in. -/
structure Queue (ι α : Type) where
  heap : α → Option (Node α)
  head : α
  tail : α
  headlock : Mutex ι
  taillock : Mutex ι

/-- What `malloc` returns, should the step call it: the address, and what is
found there. -/
structure Malloc (α : Type) where
  addr : α
  junk : Node α
  deriving DecidableEq, Repr

section Memory
variable {ι α : Type} [DecidableEq α]

/-- Writes to a field of an allocated node. -/
def Queue.store (q : Queue ι α) (a : α) (f : Node α → Node α) : Option (Queue ι α) :=
  (q.heap a).map fun n => { q with heap := Function.update q.heap a (some (f n)) }

/-- `malloc(sizeof(node))`. -/
def Queue.malloc (q : Queue ι α) (m : Malloc α) : Option (Queue ι α) :=
  if q.heap m.addr = none then
    some { q with heap := Function.update q.heap m.addr (some m.junk) }
  else none

/-- `free`. -/
def Queue.free (q : Queue ι α) (a : α) : Option (Queue ι α) :=
  (q.heap a).map fun _ => { q with heap := Function.update q.heap a none }

/-- `initQueue`, with its dummy node at `d`. -/
def initQueue (d : α) : Queue ι α where
  heap := Function.update (fun _ => none) d (some ⟨0, none⟩)
  head := d
  tail := d
  headlock := none
  taillock := none

end Memory

/-! ## `enqueue` -/

/-- The program points of `enqueue`, with `initNode` inlined. -/
inductive Enqueue (α : Type) where
  | malloc
  | initValue (tmp : α)
  | initNext (tmp : α)
  | lockTail (tmp : α)
  | loadTail (tmp : α)
  | storeNext (tmp : α) (tail : α)
  | storeTail (tmp : α)
  | unlockTail
  deriving DecidableEq, Repr

/-- The program points of `dequeue`. -/
inductive Dequeue (α : Type) where
  | lockHead
  | loadHead
  | loadNext (current : α)
  | unlockEmpty
  | storeHead (current : α) (newHead : α)
  | unlockHead (current : α)
  | free (current : α)
  deriving DecidableEq, Repr

section Code
variable {ι α : Type} [DecidableEq α]

/-- `enqueue(q, value)`, one step of thread `i`. -/
def enqueue (i : ι) (m : Malloc α) (value : Int) (q : Queue ι α) :
    Enqueue α → Option (Queue ι α × Ctl (Enqueue α))
  | .malloc => (q.malloc m).map fun q => (q, .goto (.initValue m.addr))
  | .initValue tmp => (q.store tmp fun n => { n with value := value }).map fun q =>
      (q, .goto (.initNext tmp))
  | .initNext tmp => (q.store tmp fun n => { n with next := none }).map fun q =>
      (q, .goto (.lockTail tmp))
  | .lockTail tmp => (q.taillock.lock i).map fun l =>
      ({ q with taillock := l }, .goto (.loadTail tmp))
  | .loadTail tmp => some (q, .goto (.storeNext tmp q.tail))
  | .storeNext tmp tail => (q.store tail fun n => { n with next := some tmp }).map fun q =>
      (q, .goto (.storeTail tmp))
  | .storeTail tmp => some ({ q with tail := tmp }, .goto .unlockTail)
  | .unlockTail => some ({ q with taillock := q.taillock.unlock }, .ret)

/-- `dequeue(q)`, one step of thread `i`. -/
def dequeue (i : ι) (q : Queue ι α) : Dequeue α → Option (Queue ι α × Ctl (Dequeue α))
  | .lockHead => (q.headlock.lock i).map fun l => ({ q with headlock := l }, .goto .loadHead)
  | .loadHead => some (q, .goto (.loadNext q.head))
  | .loadNext current => (q.heap current).map fun n =>
      (q, .goto (match n.next with
        | none => .unlockEmpty
        | some newHead => .storeHead current newHead))
  | .unlockEmpty => some ({ q with headlock := q.headlock.unlock }, .ret)
  | .storeHead current newHead => some ({ q with head := newHead }, .goto (.unlockHead current))
  | .unlockHead current =>
      some ({ q with headlock := q.headlock.unlock }, .goto (.free current))
  | .free current => (q.free current).map fun q => (q, .ret)

end Code

/-! ## Threads -/

/-- A call that a thread makes. -/
inductive Op where
  | enqueue (value : Int)
  | dequeue
  deriving DecidableEq, Repr

/-- Where a thread stands: between two calls or in one of them. -/
inductive Pc (α : Type) where
  | idle
  | enqueue (value : Int) (p : Enqueue α)
  | dequeue (p : Dequeue α)
  deriving DecidableEq, Repr

/-- A thread, and the calls it has still to begin. -/
structure Worker (α : Type) where
  pc : Pc α
  calls : List Op
  deriving DecidableEq, Repr

section Program
variable {ι α : Type} [DecidableEq ι] [DecidableEq α]

/-- One step of thread `i`. -/
def worker (i : ι) (m : Malloc α) (q : Queue ι α) : Worker α → Option (Queue ι α × Worker α)
  | ⟨.idle, []⟩ => none
  | ⟨.idle, .enqueue v :: calls⟩ => some (q, ⟨.enqueue v .malloc, calls⟩)
  | ⟨.idle, .dequeue :: calls⟩ => some (q, ⟨.dequeue .lockHead, calls⟩)
  | ⟨.enqueue v p, calls⟩ => (enqueue i m v q p).map fun r =>
      (r.1, ⟨r.2.resume (.enqueue v) .idle, calls⟩)
  | ⟨.dequeue p, calls⟩ => (dequeue i q p).map fun r =>
      (r.1, ⟨r.2.resume .dequeue .idle, calls⟩)

/-- Who moves, and what `malloc` would give it. -/
structure Move (ι α : Type) where
  tid : ι
  malloc : Malloc α
  deriving DecidableEq, Repr

/-- Threads with the given calls to make on a fresh queue with dummy `d`. -/
def initial (calls : ι → List Op) (d : α) : Conf ι (Queue ι α) (Worker α) :=
  ⟨initQueue d, fun i => ⟨.idle, calls i⟩⟩

/-- The program: any thread may move next. -/
def program (calls : ι → List Op) (d : α) :
    System (Conf ι (Queue ι α) (Worker α)) (Move ι α) :=
  ⟨initial calls d, fun m c => c.step (worker m.tid m.malloc) m.tid⟩

end Program
end CAdvanced.TwoLockQueue
