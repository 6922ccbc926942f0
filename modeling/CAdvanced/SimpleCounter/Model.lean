import CAdvanced.Interleave.ForkJoin
import CAdvanced.Interleave.Monitor
import CAdvanced.CInt.Wrap

/-!
# SimpleCounter — Model

The counter of `simple-counter.c`: `increment`, `decrement` and `get` all do their work
between `Pthread_mutex_lock` and `Pthread_mutex_unlock`, where `value++` and `value--` are a
load and a store of an `int`, which wraps. The wrappers' `assert (rc == 0)` hold: nobody locks
twice, nobody unlocks what it does not hold.
-/

namespace CAdvanced.SimpleCounter

open Interleave

/-- The functions of the counter. -/
inductive Op where
  | increment
  | decrement
  | get
  deriving DecidableEq, Repr

/-- The program points between the lock and the unlock. -/
inductive Point where
  | loadIncrement
  | storeIncrement (r : Int)
  | loadDecrement
  | storeDecrement (r : Int)
  | loadGet
  deriving DecidableEq, Repr

/-- Where a function goes on once it has the lock. -/
def entry : Op → Point
  | .increment => .loadIncrement
  | .decrement => .loadDecrement
  | .get => .loadGet

/-- One step under the lock, on `value`; only `get` returns something. -/
def body (value : Int) : Point → Int × (Point ⊕ Option Int)
  | .loadIncrement => (value, .inl (.storeIncrement value))
  | .storeIncrement r => (CInt.signed 32 (r + 1), .inr none)
  | .loadDecrement => (value, .inl (.storeDecrement value))
  | .storeDecrement r => (CInt.signed 32 (r - 1), .inr none)
  | .loadGet => (value, .inr (some value))

/-- `counter`, as `init` leaves it. -/
def counter : Object Int Op (Option Int) Point := ⟨0, entry, body⟩

/-! ## `main` -/

/-- What is shared: `counter` with its lock. The children take it under their number, `main`
under none. -/
abbrev Shared (loop : Nat) := Guarded (Option (Fin loop)) Int

abbrev Caller := Client Op (Option Int) Point

/-- What `main` does when it has joined its threads: `get(&count)`, and `printf`. -/
inductive Tail where
  | get (t : Caller)
  | printCounter (r : Option Int)
  | finished (counter : Option Int)

/-- The end of `main`, one step. -/
def tail {loop : Nat} (s : Shared loop) : Tail → Option (Shared loop × Tail)
  | .get t => (counter.client none s t).map fun x =>
      (x.1, match x.2.results with
        | [] => .get x.2
        | (_, r) :: _ => .printCounter r)
  | .printCounter r => some (s, .finished r)
  | .finished _ => none

/-- `main`, from `init` on: each of its threads runs `increment` once. -/
def main (loop : Nat) : Family (Fin loop) (Shared loop) Caller (Fin loop) Tail loop where
  children := counter.system some fun _ => [.increment]
  tid := id
  order := Equiv.refl _
  returned := Client.finished
  tail := tail
  start := .get ⟨.idle, [.get], []⟩

end CAdvanced.SimpleCounter
