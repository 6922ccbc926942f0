import CAdvanced.Interleave.Sync
import CAdvanced.Interleave.Threads

/-!
# DeadlockGlobal — Model

The program `main-deadlock-global.c`: a worker takes `m1` and `m2` in an order that depends
on its argument, and does so while it holds `g`. A step is one lock or unlock.
-/

namespace CAdvanced.DeadlockGlobal

open Interleave

/-- The three mutexes. -/
inductive Lock where
  | g
  | m1
  | m2
  deriving DecidableEq, Repr

/-- What a statement of `worker` does. -/
inductive Op where
  | lock (l : Lock)
  | unlock (l : Lock)
  deriving DecidableEq, Repr

/-- Where `worker` stands: at its first lock, in one of the two branches, or behind them. -/
inductive Pc where
  | lockG
  | ifLockM1
  | ifLockM2
  | elseLockM2
  | elseLockM1
  | unlockM1
  | unlockM2
  | unlockG
  | returned
  deriving DecidableEq, Repr

/-- `worker(arg)`: the statement at a point, and the point behind it. -/
def worker (arg : Int) : Pc → Option (Op × Pc)
  | .lockG => some (.lock .g, if arg = 0 then .ifLockM1 else .elseLockM2)
  | .ifLockM1 => some (.lock .m1, .ifLockM2)
  | .ifLockM2 => some (.lock .m2, .unlockM1)
  | .elseLockM2 => some (.lock .m2, .elseLockM1)
  | .elseLockM1 => some (.lock .m1, .unlockM1)
  | .unlockM1 => some (.unlock .m1, .unlockM2)
  | .unlockM2 => some (.unlock .m2, .unlockG)
  | .unlockG => some (.unlock .g, .returned)
  | .returned => none

section Threads
variable {ι : Type}

/-- The mutexes, each with its holder. -/
abbrev Shared (ι : Type) := Lock → Mutex ι

/-- Thread `j` does what its statement says. -/
def perform (j : ι) : Op → Shared ι → Option (Shared ι)
  | .lock l, s => ((s l).lock j).map fun m => Function.update s l m
  | .unlock l, s => some (Function.update s l (s l).unlock)

/-- One step of thread `j`. -/
def code (arg : Int) (j : ι) (s : Shared ι) (t : Pc) : Option (Shared ι × Pc) :=
  (worker arg t).bind fun r => (perform j r.1 s).map fun s' => (s', r.2)

/-- The mutexes and the threads. -/
abbrev State (ι : Type) := Conf ι (Shared ι) Pc

/-- All threads have been created. -/
def start (ι : Type) : State ι := ⟨fun _ => none, fun _ => .lockG⟩

/-- The threads, each with its argument. -/
def workers [DecidableEq ι] (arg : ι → Int) : System (State ι) ι :=
  ⟨start ι, fun j c => c.step (code (arg j) j) j⟩

end Threads
end CAdvanced.DeadlockGlobal
