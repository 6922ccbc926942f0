import CAdvanced.Interleave.Threads
import CAdvanced.Interleave.Sync

/-!
# LinkedList — Model

The list of `linked-list.c` with hand-over-hand locking, on a memory of nodes
and a memory of mutexes; a node holds the address of its mutex, as `node->lock`
does. One step is one lock operation, one `malloc`, or one read or write of
`list->head` or of a field of a node; local variables travel in the program
point, and a test of a local variable belongs to the read before it.

`malloc` may return any address where nothing is allocated, with whatever lies
there; the choice is part of the schedule. An access to something that is not
allocated has no step.
-/

namespace CAdvanced.LinkedList

open Interleave

/-- `node`. -/
structure Node (α : Type) where
  value : Int
  next : Option α
  lock : α
  deriving DecidableEq, Repr

/-- `nodeList`, and the memory its nodes and their mutexes lie in. -/
structure NodeList (ι α : Type) where
  nodes : α → Option (Node α)
  mutexes : α → Option (Mutex ι)
  head : α

/-- What `malloc` returns, should the step call it: the address, and what is
found there. -/
structure Malloc (ι α : Type) where
  addr : α
  junkNode : Node α
  junkMutex : Mutex ι
  deriving DecidableEq, Repr

section Memory
variable {ι α : Type} [DecidableEq α]

/-- Writes to a field of an allocated node. -/
def NodeList.store (s : NodeList ι α) (a : α) (f : Node α → Node α) :
    Option (NodeList ι α) :=
  (s.nodes a).map fun n => { s with nodes := Function.update s.nodes a (some (f n)) }

/-- `malloc(sizeof(node))`. -/
def NodeList.mallocNode (s : NodeList ι α) (m : Malloc ι α) : Option (NodeList ι α) :=
  if s.nodes m.addr = none then
    some { s with nodes := Function.update s.nodes m.addr (some m.junkNode) }
  else none

/-- `malloc(sizeof(pthread_mutex_t))`. -/
def NodeList.mallocMutex (s : NodeList ι α) (m : Malloc ι α) : Option (NodeList ι α) :=
  if s.mutexes m.addr = none then
    some { s with mutexes := Function.update s.mutexes m.addr (some m.junkMutex) }
  else none

/-- `Pthread_mutex_init`. -/
def NodeList.mutexInit (s : NodeList ι α) (l : α) : Option (NodeList ι α) :=
  (s.mutexes l).map fun _ => { s with mutexes := Function.update s.mutexes l (some none) }

/-- `Pthread_mutex_lock`, by thread `i`. -/
def NodeList.mutexLock (s : NodeList ι α) (i : ι) (l : α) : Option (NodeList ι α) :=
  (s.mutexes l).bind fun m => (m.lock i).map fun m =>
    { s with mutexes := Function.update s.mutexes l (some m) }

/-- `Pthread_mutex_unlock`. -/
def NodeList.mutexUnlock (s : NodeList ι α) (l : α) : Option (NodeList ι α) :=
  (s.mutexes l).map fun m =>
    { s with mutexes := Function.update s.mutexes l (some m.unlock) }

/-- `initList`, with its dummy node at `d` and that node's mutex at `l`. -/
def initList (d l : α) : NodeList ι α where
  nodes := Function.update (fun _ => none) d (some ⟨0, none, l⟩)
  mutexes := Function.update (fun _ => none) l (some none)
  head := d

end Memory

/-! ## `initNode` -/

/-- The program points of `initNode`. -/
inductive InitNode (α : Type) where
  | malloc
  | mallocLock (newNode : α)
  | storeLock (newNode l : α)
  | loadLock (newNode : α)
  | initLock (newNode l : α)
  | storeValue (newNode : α)
  | storeNext (newNode : α)
  deriving DecidableEq, Repr

section Code
variable {ι α : Type} [DecidableEq α]

/-- `initNode(value, next)`, one step: to a program point, or back with the
node. -/
def initNode (m : Malloc ι α) (value : Int) (next : Option α) (s : NodeList ι α) :
    InitNode α → Option (NodeList ι α × (InitNode α ⊕ α))
  | .malloc => (s.mallocNode m).map fun s => (s, .inl (.mallocLock m.addr))
  | .mallocLock newNode => (s.mallocMutex m).map fun s =>
      (s, .inl (.storeLock newNode m.addr))
  | .storeLock newNode l => (s.store newNode fun n => { n with lock := l }).map fun s =>
      (s, .inl (.loadLock newNode))
  | .loadLock newNode => (s.nodes newNode).map fun n => (s, .inl (.initLock newNode n.lock))
  | .initLock newNode l => (s.mutexInit l).map fun s => (s, .inl (.storeValue newNode))
  | .storeValue newNode => (s.store newNode fun n => { n with value := value }).map fun s =>
      (s, .inl (.storeNext newNode))
  | .storeNext newNode => (s.store newNode fun n => { n with next := next }).map fun s =>
      (s, .inr newNode)

end Code

/-! ## `addToList` -/

/-- The program points of `addToList`. Both of its branches end in the same
way: with a new node, whose `next` is NULL or what `current->next` was read to
be. -/
inductive AddToList (α : Type) where
  | loadHead
  | loadLock (current : α)
  | lock (current l : α)
  | testNext (current : α)
  | whileNext (current : α)
  | loadNext (current : α)
  | loadLockNext (previous current : α)
  | lockNext (previous current l : α)
  | loadLockPrevious (previous current : α)
  | unlockPrevious (previous current l : α)
  | loadNextArg (current : α)
  | create (current : α) (next : Option α) (p : InitNode α)
  | storeNext (current newNode : α)
  | loadLockLast (current : α)
  | unlockLast (current l : α)
  deriving DecidableEq, Repr

section Code
variable {ι α : Type} [DecidableEq α]

/-- `addToList(listpointer, value)`, one step of thread `i`. -/
def addToList (i : ι) (m : Malloc ι α) (value : Int) (s : NodeList ι α) :
    AddToList α → Option (NodeList ι α × Ctl (AddToList α))
  | .loadHead => some (s, .goto (.loadLock s.head))
  | .loadLock current => (s.nodes current).map fun n => (s, .goto (.lock current n.lock))
  | .lock current l => (s.mutexLock i l).map fun s => (s, .goto (.testNext current))
  -- case empty list
  | .testNext current => (s.nodes current).map fun n =>
      (s, .goto (if n.next = none then .create current none .malloc else .whileNext current))
  | .whileNext current => (s.nodes current).map fun n =>
      (s, .goto (if n.next = none then .loadNextArg current else .loadNext current))
  -- `previous = current; current = current->next`
  | .loadNext current => (s.nodes current).bind fun n => n.next.map fun next =>
      (s, .goto (.loadLockNext current next))
  | .loadLockNext previous current => (s.nodes current).map fun n =>
      (s, .goto (.lockNext previous current n.lock))
  | .lockNext previous current l => (s.mutexLock i l).map fun s =>
      (s, .goto (.loadLockPrevious previous current))
  | .loadLockPrevious previous current => (s.nodes previous).map fun n =>
      (s, .goto (.unlockPrevious previous current n.lock))
  | .unlockPrevious _ current l => (s.mutexUnlock l).map fun s =>
      (s, .goto (.whileNext current))
  | .loadNextArg current => (s.nodes current).map fun n =>
      (s, .goto (.create current n.next .malloc))
  | .create current next p => (initNode m value next s p).map fun r =>
      (r.1, .goto (r.2.elim (.create current next) (.storeNext current)))
  | .storeNext current newNode =>
      (s.store current fun n => { n with next := some newNode }).map fun s =>
        (s, .goto (.loadLockLast current))
  | .loadLockLast current => (s.nodes current).map fun n =>
      (s, .goto (.unlockLast current n.lock))
  | .unlockLast _ l => (s.mutexUnlock l).map fun s => (s, .ret)

end Code

/-! ## Threads -/

/-- Where a thread stands: between two calls or in one of them. -/
inductive Pc (α : Type) where
  | idle
  | addToList (value : Int) (p : AddToList α)
  deriving DecidableEq, Repr

/-- A thread, and the values it has still to add. -/
structure Worker (α : Type) where
  pc : Pc α
  values : List Int
  deriving DecidableEq, Repr

section Program
variable {ι α : Type} [DecidableEq ι] [DecidableEq α]

/-- One step of thread `i`. -/
def worker (i : ι) (m : Malloc ι α) (s : NodeList ι α) :
    Worker α → Option (NodeList ι α × Worker α)
  | ⟨.idle, []⟩ => none
  | ⟨.idle, v :: values⟩ => some (s, ⟨.addToList v .loadHead, values⟩)
  | ⟨.addToList v p, values⟩ => (addToList i m v s p).map fun r =>
      (r.1, ⟨r.2.resume (.addToList v) .idle, values⟩)

/-- Who moves, and what `malloc` would give it. -/
structure Move (ι α : Type) where
  tid : ι
  malloc : Malloc ι α
  deriving DecidableEq, Repr

/-- Threads with the given values to add to a fresh list. -/
def initial (values : ι → List Int) (d l : α) : Conf ι (NodeList ι α) (Worker α) :=
  ⟨initList d l, fun i => ⟨.idle, values i⟩⟩

/-- The program: any thread may move next. -/
def program (values : ι → List Int) (d l : α) :
    System (Conf ι (NodeList ι α) (Worker α)) (Move ι α) :=
  ⟨initial values d l, fun m c => c.step (worker m.tid m.malloc) m.tid⟩

end Program
end CAdvanced.LinkedList
