import CAdvanced.Interleave.Threads
import CAdvanced.Interleave.Sync

/-!
# Barrier — Model

The barrier of `barrier.c` and the children that meet at it. One step is one
semaphore operation or one load or store of `count`; `count++` is two steps. The
comparison with `threads` loads `count` OUTSIDE the mutex section, so other
children may have stored it in between.
-/

namespace CAdvanced.Barrier

open Interleave

/-- `barrier_t`. The field `threads` is written by `barrier_init` only. -/
structure BarrierT where
  threads : Int
  count : Int
  mutex : Nat
  barrier : Nat
  deriving DecidableEq, Repr

/-- `barrier_init`. -/
def barrierInit (numThreads : Int) : BarrierT :=
  { threads := numThreads, count := 0, mutex := 1, barrier := 0 }

/-- The program points of `barrier`. -/
inductive Point where
  | waitMutex
  | loadCount
  | storeCount (r : Int)
  | postMutex
  | testCount
  | postBarrier
  | waitBarrier
  | postAgain
  deriving DecidableEq, Repr

/-- `barrier`, one step. -/
def barrier (b : BarrierT) : Point → Option (BarrierT × Ctl Point)
  | .waitMutex => (semWait b.mutex).map fun s => ({ b with mutex := s }, .goto .loadCount)
  | .loadCount => some (b, .goto (.storeCount b.count))
  | .storeCount r => some ({ b with count := r + 1 }, .goto .postMutex)
  | .postMutex => some ({ b with mutex := semPost b.mutex }, .goto .testCount)
  | .testCount => some (b, .goto (if b.count = b.threads then .postBarrier else .waitBarrier))
  | .postBarrier => some ({ b with barrier := semPost b.barrier }, .goto .waitBarrier)
  | .waitBarrier => (semWait b.barrier).map fun s => ({ b with barrier := s }, .goto .postAgain)
  -- every child that came through lets the next one through
  | .postAgain => some ({ b with barrier := semPost b.barrier }, .ret)

/-! ## The children -/

/-- What a child prints. -/
inductive Line where
  | before (threadId : Nat)
  | after (threadId : Nat)
  deriving DecidableEq, Repr

/-- What the children share: the barrier, and what has been printed so far. -/
structure Shared where
  b : BarrierT
  printed : List Line
  deriving DecidableEq, Repr

/-- The program points of `child`. -/
inductive Child where
  | printBefore
  | barrier (p : Point)
  | printAfter
  | finished
  deriving DecidableEq, Repr

/-- `child`, one step of the child with id `threadId`. -/
def child (threadId : Nat) (s : Shared) : Child → Option (Shared × Child)
  | .printBefore =>
      some ({ s with printed := s.printed ++ [.before threadId] }, .barrier .waitMutex)
  | .barrier p => (barrier s.b p).map fun r =>
      ({ s with b := r.1 }, r.2.resume .barrier .printAfter)
  | .printAfter => some ({ s with printed := s.printed ++ [.after threadId] }, .finished)
  | .finished => none

/-- The barrier for `numThreads` children, and all of them at their start. -/
def initial (numThreads : Nat) : Conf (Fin numThreads) Shared Child :=
  ⟨⟨barrierInit numThreads, []⟩, fun _ => .printBefore⟩

/-- The program: child `i` has the id `i`. -/
def program (numThreads : Nat) :
    System (Conf (Fin numThreads) Shared Child) (Fin numThreads) :=
  ⟨initial numThreads, fun i c => c.step (child i) i⟩

end CAdvanced.Barrier
