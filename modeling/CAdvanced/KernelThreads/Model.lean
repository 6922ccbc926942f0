import CAdvanced.Interleave.KernelThread

/-!
# KernelThreads — Model

The threads of `mykthread.c` and `mysemaphore.c`, and the calls of the two `ModExit`s that have
to do with them. `wait_event_interruptible_timeout` looks at the signal first, and then sleeps
until its time is over or the signal comes; nobody wakes the queues, and the conditions are never
true. A contended `mutex_lock_interruptible` tries the lock and looks at the signal in turn. The
other calls of `ModExit` give devices back, and are left out.
-/

namespace CAdvanced

open Interleave

namespace Mykthread

/-- Where `print_messages` stands, with its `i`. -/
inductive Pc where
  | allowSignal
  | loop (i : Nat)
  | waitEvent (i : Nat)
  | asleep (i : Nat)
  | printk (i : Nat)
  deriving DecidableEq, Repr

/-- One step of `print_messages`. What the wait returns is not looked at, and
`kthread_should_stop()` is 0, since nobody calls `kthread_stop`. -/
def printMessages (timedOut : Bool) (sigterm : Sigterm) : Pc → Option (Sigterm × Option Pc)
  | .allowSignal => some (sigterm.allow, some (.loop 0))
  | .loop i => some (sigterm, if i < 3 then some (.waitEvent i) else none)
  | .waitEvent i => some (sigterm, some (if sigterm = .pending then .printk i else .asleep i))
  | .asleep i => if timedOut || sigterm = .pending then some (sigterm, some (.printk i)) else none
  | .printk i => some (sigterm, some (.loop (i + 1)))

/-- The module: one thread, `thread_id`. -/
def mykthread : KernelModule Unit Unit Pc where
  data := ()
  entry := .allowSignal
  code := fun _ timedOut _ sigterm p =>
    (printMessages timedOut sigterm p).map fun r => ((), r.1, r.2)
  exit := [.taskPid (), .killPid (), .waitForCompletion]

end Mykthread

namespace Mysemaphore

/-- The two threads. -/
inductive ThreadId where
  | threadId1
  | threadId2
  deriving DecidableEq, Repr

instance : Fintype ThreadId where
  elems := {.threadId1, .threadId2}
  complete := fun i => by cases i <;> decide

/-- What the threads share. -/
structure Shared where
  listMutex : Mutex ThreadId
  globalCounter : Int
  deriving DecidableEq, Repr

/-- Where `thread_code` stands, with its `i`; behind the wait also with whether it was
interrupted. -/
inductive Pc where
  | allowSignal
  | loop (i : Nat)
  | mutexLock (i : Nat)
  | lockSignal (i : Nat)
  | increment (i : Nat)
  | printCounter (i : Nat)
  | mutexUnlock (i : Nat)
  | waitEvent (i : Nat)
  | asleep (i : Nat)
  | wokeUp (i : Nat) (interrupted : Bool)
  | printInterrupted
  deriving DecidableEq, Repr

/-- One step of `thread_code` in thread `j`. -/
def threadCode (j : ThreadId) (timedOut : Bool) (s : Shared) (sigterm : Sigterm) :
    Pc → Option (Shared × Sigterm × Option Pc)
  | .allowSignal => some (s, sigterm.allow, some (.loop 0))
  | .loop i => some (s, sigterm, if i < 2 then some (.mutexLock i) else none)
  | .mutexLock i =>
      match s.listMutex.lock j with
      | some m => some ({ s with listMutex := m }, sigterm, some (.increment i))
      | none => some (s, sigterm, some (.lockSignal i))
  | .lockSignal i =>
      -- `-EINTR`, or the next try
      some (s, sigterm, some (if sigterm = .pending then .printInterrupted else .mutexLock i))
  | .increment i =>
      some ({ s with globalCounter := s.globalCounter + 1 }, sigterm, some (.printCounter i))
  | .printCounter i => some (s, sigterm, some (.mutexUnlock i))
  | .mutexUnlock i =>
      some ({ s with listMutex := s.listMutex.unlock }, sigterm, some (.waitEvent i))
  | .waitEvent i =>
      some (s, sigterm, some (if sigterm = .pending then .wokeUp i true else .asleep i))
  | .asleep i =>
      if timedOut then some (s, sigterm, some (.wokeUp i false))
      else if sigterm = .pending then some (s, sigterm, some (.wokeUp i true))
      else none
  | .wokeUp i interrupted =>
      some (s, sigterm, some (if interrupted then .printInterrupted else .loop (i + 1)))
  | .printInterrupted => some (s, sigterm, none)

/-- The module, which signals its threads in turn, and waits twice. -/
def mysemaphore : KernelModule ThreadId Shared Pc where
  data := ⟨none, 0⟩
  entry := .allowSignal
  code := threadCode
  exit :=
    [.taskPid .threadId1, .killPid .threadId1, .taskPid .threadId2, .killPid .threadId2,
      .waitForCompletion, .waitForCompletion]

end Mysemaphore
end CAdvanced
