import CAdvanced.Interleave.Threads
import CAdvanced.Interleave.Sync
import CAdvanced.CInt.Wrap

/-!
# MutexNostarve — Model

`mutex-nostarve.c`: a starvation-free mutex from three semaphores and two
unprotected counters. One step of a thread is one semaphore operation or one
load or store of `warteraum1`, `warteraum2` or `critical`; `x += 1` is
therefore two steps, and the loaded value travels in the program point. All
three are `int`s. `warteraum1` and `warteraum2` never leave the range of the
thread count; `critical` counts the rounds of all threads, and wraps.

A worker runs its acquire / critical section / release round as often as its
own quota says (the program's `worker` has quota 1).
-/

namespace CAdvanced.MutexNostarve

open Interleave

/-- `ns_mutex_t`. -/
structure NsMutex where
  warteraum1 : Int
  warteraum2 : Int
  mutex : Nat
  drehkreuz1 : Nat
  drehkreuz2 : Nat
  deriving DecidableEq, Repr

/-- `ns_mutex_init`. -/
def nsMutexInit : NsMutex :=
  { mutex := 1, drehkreuz1 := 1, drehkreuz2 := 0, warteraum1 := 0, warteraum2 := 0 }

/-- The program points of `ns_mutex_acquire`, in source order. -/
inductive Acquire where
  | waitMutex
  | loadWarteraum1
  | storeWarteraum1 (r : Int)
  | postMutex
  | waitDrehkreuz1
  | loadWarteraum2
  | storeWarteraum2 (r : Int)
  | waitMutexAgain
  | loadWarteraum1Dec
  | storeWarteraum1Dec (r : Int)
  | testWarteraum1
  | postMutexEmpty
  | postDrehkreuz2
  | postMutexBusy
  | postDrehkreuz1
  | waitDrehkreuz2
  | loadWarteraum2Dec
  | storeWarteraum2Dec (r : Int)
  deriving DecidableEq, Repr

/-- `ns_mutex_acquire`, one step. -/
def nsMutexAcquire (m : NsMutex) : Acquire → Option (NsMutex × Ctl Acquire)
  | .waitMutex => (semWait m.mutex).map fun s =>
      ({ m with mutex := s }, .goto .loadWarteraum1)
  | .loadWarteraum1 => some (m, .goto (.storeWarteraum1 m.warteraum1))
  | .storeWarteraum1 r => some ({ m with warteraum1 := r + 1 }, .goto .postMutex)
  | .postMutex => some ({ m with mutex := semPost m.mutex }, .goto .waitDrehkreuz1)
  | .waitDrehkreuz1 => (semWait m.drehkreuz1).map fun s =>
      ({ m with drehkreuz1 := s }, .goto .loadWarteraum2)
  | .loadWarteraum2 => some (m, .goto (.storeWarteraum2 m.warteraum2))
  | .storeWarteraum2 r => some ({ m with warteraum2 := r + 1 }, .goto .waitMutexAgain)
  | .waitMutexAgain => (semWait m.mutex).map fun s =>
      ({ m with mutex := s }, .goto .loadWarteraum1Dec)
  | .loadWarteraum1Dec => some (m, .goto (.storeWarteraum1Dec m.warteraum1))
  | .storeWarteraum1Dec r => some ({ m with warteraum1 := r - 1 }, .goto .testWarteraum1)
  | .testWarteraum1 =>
      some (m, .goto (if m.warteraum1 = 0 then .postMutexEmpty else .postMutexBusy))
  -- the last thread of the first waiting room opens the second turnstile
  | .postMutexEmpty => some ({ m with mutex := semPost m.mutex }, .goto .postDrehkreuz2)
  | .postDrehkreuz2 =>
      some ({ m with drehkreuz2 := semPost m.drehkreuz2 }, .goto .waitDrehkreuz2)
  -- any other thread lets the next one into the second waiting room
  | .postMutexBusy => some ({ m with mutex := semPost m.mutex }, .goto .postDrehkreuz1)
  | .postDrehkreuz1 =>
      some ({ m with drehkreuz1 := semPost m.drehkreuz1 }, .goto .waitDrehkreuz2)
  | .waitDrehkreuz2 => (semWait m.drehkreuz2).map fun s =>
      ({ m with drehkreuz2 := s }, .goto .loadWarteraum2Dec)
  | .loadWarteraum2Dec => some (m, .goto (.storeWarteraum2Dec m.warteraum2))
  | .storeWarteraum2Dec r => some ({ m with warteraum2 := r - 1 }, .ret)

/-- The program points of `ns_mutex_release`. -/
inductive Release where
  | testWarteraum2
  | postDrehkreuz1
  | postDrehkreuz2
  deriving DecidableEq, Repr

/-- `ns_mutex_release`, one step. -/
def nsMutexRelease (m : NsMutex) : Release → Option (NsMutex × Ctl Release)
  | .testWarteraum2 =>
      some (m, .goto (if m.warteraum2 = 0 then .postDrehkreuz1 else .postDrehkreuz2))
  | .postDrehkreuz1 => some ({ m with drehkreuz1 := semPost m.drehkreuz1 }, .ret)
  | .postDrehkreuz2 => some ({ m with drehkreuz2 := semPost m.drehkreuz2 }, .ret)

/-! ## The program -/

/-- What the workers share: the lock and the global `critical`. -/
structure Shared where
  mutex : NsMutex
  critical : Int
  deriving DecidableEq, Repr

/-- The program points of a worker. -/
inductive Pc where
  | idle
  | acquire (p : Acquire)
  | loadCritical
  | storeCritical (r : Int)
  | release (p : Release)
  | finished
  deriving DecidableEq, Repr

/-- A worker: where it stands, and how many rounds it has not begun yet. -/
structure Worker where
  pc : Pc
  left : Nat
  deriving DecidableEq, Repr

/-- `worker`, one step: `critical++` between acquire and release. -/
def worker (s : Shared) : Worker → Option (Shared × Worker)
  | ⟨.idle, 0⟩ => some (s, ⟨.finished, 0⟩)
  | ⟨.idle, n + 1⟩ => some (s, ⟨.acquire .waitMutex, n⟩)
  | ⟨.acquire p, n⟩ => (nsMutexAcquire s.mutex p).map fun r =>
      ({ s with mutex := r.1 }, ⟨r.2.resume .acquire .loadCritical, n⟩)
  | ⟨.loadCritical, n⟩ => some (s, ⟨.storeCritical s.critical, n⟩)
  | ⟨.storeCritical r, n⟩ =>
      some ({ s with critical := CInt.signed 32 (r + 1) }, ⟨.release .testWarteraum2, n⟩)
  | ⟨.release p, n⟩ => (nsMutexRelease s.mutex p).map fun r =>
      ({ s with mutex := r.1 }, ⟨r.2.resume .release .idle, n⟩)
  | ⟨.finished, _⟩ => none

variable {ι : Type}

/-- One freshly initialised lock, `critical` zero, and thread `i` with
`rounds i` rounds to go. -/
def initial (rounds : ι → Nat) : Conf ι Shared Worker :=
  ⟨⟨nsMutexInit, 0⟩, fun i => ⟨.idle, rounds i⟩⟩

/-- The program: every thread runs `worker`. -/
def program [DecidableEq ι] (rounds : ι → Nat) : System (Conf ι Shared Worker) ι :=
  Interleave.threads worker (initial rounds)

end CAdvanced.MutexNostarve
