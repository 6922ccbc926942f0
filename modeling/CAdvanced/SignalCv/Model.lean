import CAdvanced.Interleave.Condition
import CAdvanced.Interleave.Sync
import CAdvanced.Interleave.Termination

/-!
# SignalCv — Model

The synchronizer of `main-signal-cv.c`, and threads that use it as the program does: a
worker prints its line and calls `signal_done`, and whoever waits calls `signal_wait` and
prints its line then. The program has one of each, with `main` as the one that waits, from
the creation of its thread on.

One step is one operation on the mutex or the condition variable, one load or store of
`done`, or one line of output. A step of the environment wakes a sleeper for no reason.
-/

namespace CAdvanced.SignalCv

open Interleave

/-- `synchronizer_t`: the mutex with its holder, who sleeps on `cond`, and `done`. -/
structure Synchronizer (ι : Type) where
  lock : Mutex ι
  cond : WaitQueue ι
  done : Int

/-- `signal_init`. -/
def signalInit (ι : Type) : Synchronizer ι := { lock := none, cond := fun _ => false, done := 0 }

/-- The program points of `signal_done`. -/
inductive SignalDone where
  | lock
  | storeDone
  | signal
  | unlock
  deriving DecidableEq, Repr

/-- The program points of `signal_wait`; at `wake`, in `pthread_cond_wait`, the thread has
given the mutex up, and takes it again when it is awake. -/
inductive SignalWait where
  | lock
  | testDone
  | wait
  | wake
  | unlock
  deriving DecidableEq, Repr

section Code
variable {ι : Type} [DecidableEq ι] [Fintype ι]

/-- `signal_done`, one step of thread `i`; `pthread_cond_signal` would wake `j`. -/
def signalDone (i j : ι) (s : Synchronizer ι) :
    SignalDone → Option (Synchronizer ι × Ctl SignalDone)
  | .lock => (s.lock.lock i).map fun l => ({ s with lock := l }, .goto .storeDone)
  | .storeDone => some ({ s with done := 1 }, .goto .signal)
  | .signal => (s.cond.signal j).map fun q => ({ s with cond := q }, .goto .unlock)
  | .unlock => some ({ s with lock := s.lock.unlock }, .ret)

/-- `signal_wait`, one step of thread `i`. -/
def signalWait (i : ι) (s : Synchronizer ι) :
    SignalWait → Option (Synchronizer ι × Ctl SignalWait)
  | .lock => (s.lock.lock i).map fun l => ({ s with lock := l }, .goto .testDone)
  | .testDone => some (s, .goto (if s.done = 0 then .wait else .unlock))
  | .wait =>
      some ({ s with lock := s.lock.unlock, cond := s.cond.enter i }, .goto .wake)
  | .wake =>
      if s.cond i = true then none
      else (s.lock.lock i).map fun l => ({ s with lock := l }, .goto .testDone)
  | .unlock => some ({ s with lock := s.lock.unlock }, .ret)

/-! ## The program -/

/-- The lines that are printed. -/
inductive Line where
  | first
  | last
  deriving DecidableEq, Repr

/-- What the threads share. -/
structure Shared (ι : Type) where
  s : Synchronizer ι
  printed : List Line

/-- A thread: one that runs `worker`, or one that waits as `main` does. -/
inductive Thread where
  | printFirst
  | signalDone (p : SignalDone)
  | workerReturned
  | signalWait (p : SignalWait)
  | printLast
  | mainReturned
  deriving DecidableEq, Repr

/-- One step of thread `i`, whose signal would wake `j`. -/
def thread (i j : ι) (s : Shared ι) : Thread → Option (Shared ι × Thread)
  | .printFirst => some ({ s with printed := s.printed ++ [.first] }, .signalDone .lock)
  | .signalDone p => (signalDone i j s.s p).map fun r =>
      ({ s with s := r.1 }, r.2.resume .signalDone .workerReturned)
  | .workerReturned => none
  | .signalWait p => (signalWait i s.s p).map fun r =>
      ({ s with s := r.1 }, r.2.resume .signalWait .printLast)
  | .printLast => some ({ s with printed := s.printed ++ [.last] }, .mainReturned)
  | .mainReturned => none

/-- Who moves, and whom its signal would wake; or a sleeper that wakes up by itself. -/
inductive Act (ι : Type) where
  | run (i j : ι)
  | spurious (i : ι)
  deriving DecidableEq, Repr

/-- The synchronizer and the threads. -/
abbrev State (ι : Type) := Conf ι (Shared ι) Thread

/-- One step. -/
def next : Act ι → State ι → Option (State ι)
  | .run i j, c => c.step (thread i j) i
  | .spurious i, c =>
      if c.shared.s.cond i = true then
        some { c with shared := { c.shared with s :=
          { c.shared.s with cond := c.shared.s.cond.leave i } } }
      else none

/-- After `signal_init` and the creation of the threads: those with `waits` wait, the others
are workers. -/
def start (waits : ι → Bool) : State ι :=
  ⟨⟨signalInit ι, []⟩, fun i => if waits i then .signalWait .lock else .printFirst⟩

/-- The program. -/
def program (waits : ι → Bool) : System (State ι) (Act ι) := ⟨start waits, next⟩

end Code
end CAdvanced.SignalCv
