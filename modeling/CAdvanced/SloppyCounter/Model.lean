import CAdvanced.Interleave.Threads
import CAdvanced.Interleave.Sync
import CAdvanced.CInt.Wrap

/-!
# SloppyCounter — Model

The approximate counter of `sloppy-counter.c`: a global `value` under
`globallock`, and slots that each collect increments under their own lock and
hand them to `value` when they have reached `threshold`. One step is one lock or
unlock or one load or store of `value` or of a slot; `value += local` loads both
and stores, and a loaded value travels in the program point. `threshold` is
written by `init` only. `value` and the slots are `int`s: a sum that is stored in one of
them wraps.
-/

namespace CAdvanced.SloppyCounter

open Interleave

/-- `counter`, with `THREADS` = `n` slots; `locals` is its field `local`. -/
structure Counter (ι : Type) (n : Nat) where
  value : Int
  globallock : Mutex ι
  locals : Fin n → Int
  locallock : Fin n → Mutex ι
  threshold : Int

/-- `init`. -/
def init (ι : Type) (n : Nat) (threshold : Int) : Counter ι n where
  value := 0
  globallock := none
  locals := fun _ => 0
  locallock := fun _ => none
  threshold := threshold

/-- The program points of `increment`. -/
inductive Increment where
  | lockLocal
  | loadLocal
  | storeLocal (r : Int)
  | testLocal
  | lockGlobal
  | loadValue
  | addLocal (v : Int)
  | storeValue (r : Int)
  | unlockGlobal
  | storeZero
  | unlockLocal
  deriving DecidableEq, Repr

/-- The program points of `get`. -/
inductive Get where
  | lockGlobal
  | loadValue
  | unlockGlobal (rc : Int)
  deriving DecidableEq, Repr

section Code
variable {ι : Type} {n : Nat}

/-- `increment(c, threadId)`, one step of thread `i`. -/
def increment (i : ι) (threadId : Fin n) (c : Counter ι n) :
    Increment → Option (Counter ι n × Ctl Increment)
  | .lockLocal => ((c.locallock threadId).lock i).map fun l =>
      ({ c with locallock := Function.update c.locallock threadId l }, .goto .loadLocal)
  | .loadLocal => some (c, .goto (.storeLocal (c.locals threadId)))
  | .storeLocal r =>
      some ({ c with locals := Function.update c.locals threadId (CInt.signed 32 (r + 1)) },
        .goto .testLocal)
  | .testLocal =>
      some (c, .goto (if c.threshold ≤ c.locals threadId then .lockGlobal else .unlockLocal))
  | .lockGlobal => (c.globallock.lock i).map fun l =>
      ({ c with globallock := l }, .goto .loadValue)
  | .loadValue => some (c, .goto (.addLocal c.value))
  | .addLocal v => some (c, .goto (.storeValue (CInt.signed 32 (v + c.locals threadId))))
  | .storeValue r => some ({ c with value := r }, .goto .unlockGlobal)
  | .unlockGlobal => some ({ c with globallock := c.globallock.unlock }, .goto .storeZero)
  | .storeZero =>
      some ({ c with locals := Function.update c.locals threadId 0 }, .goto .unlockLocal)
  | .unlockLocal =>
      some ({ c with
        locallock := Function.update c.locallock threadId (c.locallock threadId).unlock }, .ret)

/-- `get(c)`, one step of thread `i`; it ends with the value it returns. -/
def get (i : ι) (c : Counter ι n) : Get → Option (Counter ι n × (Get ⊕ Int))
  | .lockGlobal => (c.globallock.lock i).map fun l =>
      ({ c with globallock := l }, .inl .loadValue)
  | .loadValue => some (c, .inl (.unlockGlobal c.value))
  | .unlockGlobal rc => some ({ c with globallock := c.globallock.unlock }, .inr rc)

end Code

/-! ## Threads -/

/-- A call that a thread makes. -/
inductive Op (n : Nat) where
  | increment (threadId : Fin n)
  | get
  deriving DecidableEq, Repr

/-- Where a thread stands: between two calls or in one of them. -/
inductive Pc (n : Nat) where
  | idle
  | increment (threadId : Fin n) (p : Increment)
  | get (p : Get)
  deriving DecidableEq, Repr

/-- A thread, and what its calls of `get` have returned, oldest first. -/
structure Worker (n : Nat) where
  pc : Pc n
  got : List Int
  deriving DecidableEq, Repr

/-- Who moves, and which call it begins if it is between two calls. -/
structure Move (ι : Type) (n : Nat) where
  tid : ι
  op : Op n
  deriving DecidableEq, Repr

section Program
variable {ι : Type} {n : Nat}

/-- One step of thread `i`, which may make any calls in any order. -/
def worker (i : ι) (op : Op n) (c : Counter ι n) : Worker n → Option (Counter ι n × Worker n)
  | ⟨.idle, got⟩ => some (c, match op with
      | .increment threadId => ⟨.increment threadId .lockLocal, got⟩
      | .get => ⟨.get .lockGlobal, got⟩)
  | ⟨.increment threadId p, got⟩ => (increment i threadId c p).map fun r =>
      (r.1, ⟨r.2.resume (.increment threadId) .idle, got⟩)
  | ⟨.get p, got⟩ => (get i c p).map fun r =>
      (r.1, match r.2 with
        | .inl p => ⟨.get p, got⟩
        | .inr rc => ⟨.idle, got ++ [rc]⟩)

/-- A fresh counter, and threads that have called nothing yet. -/
def initial (ι : Type) (n : Nat) (threshold : Int) : Conf ι (Counter ι n) (Worker n) :=
  ⟨init ι n threshold, fun _ => ⟨.idle, []⟩⟩

/-- The program: threads that call `increment` and `get`. -/
def program (ι : Type) [DecidableEq ι] (n : Nat) (threshold : Int) :
    System (Conf ι (Counter ι n) (Worker n)) (Move ι n) :=
  ⟨initial ι n threshold, fun m c => c.step (worker m.tid m.op) m.tid⟩

/-- Begins a call of `increment`. -/
def begins (m : Move ι n) (c : Conf ι (Counter ι n) (Worker n)) : Bool :=
  (c.threads m.tid).pc = .idle && m.op ≠ .get

/-- Ends a call of `increment`. -/
def completes (m : Move ι n) (c : Conf ι (Counter ι n) (Worker n)) : Bool :=
  match (c.threads m.tid).pc with
  | .increment _ .unlockLocal => true
  | _ => false

end Program
end CAdvanced.SloppyCounter
