import CAdvanced.ReaderWriterMain.Model

/-!
# ReaderWriterNostarve — Model

The lock of `reader-writer-nostarve.c`: that of `reader-writer.c` with a turnstile
in front. Readers pass through it, a writer keeps it from before it waits for
the write lock until it releases. Steps and registers are as in the plain
version.
-/

namespace CAdvanced.ReaderWriterNostarve

open Interleave ReaderWriterMain

/-- `rwlock_t`. -/
structure Rwlock where
  mutex : Nat
  writelock : Nat
  turnstile : Nat
  readers : Int
  deriving DecidableEq, Repr

/-- `rwlock_init`. -/
def rwlockInit : Rwlock := { mutex := 1, writelock := 1, turnstile := 1, readers := 0 }

/-- The program points of `rwlock_acquire_readlock`. -/
inductive AcquireRead where
  | waitTurnstile
  | postTurnstile
  | waitMutex
  | loadReaders
  | storeReaders (r : Int)
  | testReaders
  | waitWritelock
  | postMutex
  deriving DecidableEq, Repr

/-- `rwlock_acquire_readlock`, one step. -/
def rwlockAcquireReadlock (rw : Rwlock) : AcquireRead → Option (Rwlock × Ctl AcquireRead)
  | .waitTurnstile => (semWait rw.turnstile).map fun s =>
      ({ rw with turnstile := s }, .goto .postTurnstile)
  | .postTurnstile => some ({ rw with turnstile := semPost rw.turnstile }, .goto .waitMutex)
  | .waitMutex => (semWait rw.mutex).map fun s =>
      ({ rw with mutex := s }, .goto .loadReaders)
  | .loadReaders => some (rw, .goto (.storeReaders rw.readers))
  | .storeReaders r => some ({ rw with readers := r + 1 }, .goto .testReaders)
  -- the first reader takes the write lock, inside the mutex section
  | .testReaders => some (rw, .goto (if rw.readers = 1 then .waitWritelock else .postMutex))
  | .waitWritelock => (semWait rw.writelock).map fun s =>
      ({ rw with writelock := s }, .goto .postMutex)
  | .postMutex => some ({ rw with mutex := semPost rw.mutex }, .ret)

/-- The program points of `rwlock_release_readlock`. -/
inductive ReleaseRead where
  | waitMutex
  | loadReaders
  | storeReaders (r : Int)
  | testReaders
  | postWritelock
  | postMutex
  deriving DecidableEq, Repr

/-- `rwlock_release_readlock`, one step. -/
def rwlockReleaseReadlock (rw : Rwlock) : ReleaseRead → Option (Rwlock × Ctl ReleaseRead)
  | .waitMutex => (semWait rw.mutex).map fun s =>
      ({ rw with mutex := s }, .goto .loadReaders)
  | .loadReaders => some (rw, .goto (.storeReaders rw.readers))
  | .storeReaders r => some ({ rw with readers := r - 1 }, .goto .testReaders)
  -- the last reader gives the write lock back, whoever took it
  | .testReaders => some (rw, .goto (if rw.readers = 0 then .postWritelock else .postMutex))
  | .postWritelock =>
      some ({ rw with writelock := semPost rw.writelock }, .goto .postMutex)
  | .postMutex => some ({ rw with mutex := semPost rw.mutex }, .ret)

/-- The program points of `rwlock_acquire_writelock`. -/
inductive AcquireWrite where
  | waitTurnstile
  | waitWritelock
  deriving DecidableEq, Repr

/-- `rwlock_acquire_writelock`, one step. -/
def rwlockAcquireWritelock (rw : Rwlock) : AcquireWrite → Option (Rwlock × Ctl AcquireWrite)
  -- block readers
  | .waitTurnstile => (semWait rw.turnstile).map fun s =>
      ({ rw with turnstile := s }, .goto .waitWritelock)
  | .waitWritelock => (semWait rw.writelock).map fun s => ({ rw with writelock := s }, .ret)

/-- The program points of `rwlock_release_writelock`. -/
inductive ReleaseWrite where
  | postTurnstile
  | postWritelock
  deriving DecidableEq, Repr

/-- `rwlock_release_writelock`, one step. -/
def rwlockReleaseWritelock (rw : Rwlock) : ReleaseWrite → Option (Rwlock × Ctl ReleaseWrite)
  | .postTurnstile =>
      some ({ rw with turnstile := semPost rw.turnstile }, .goto .postWritelock)
  | .postWritelock => some ({ rw with writelock := semPost rw.writelock }, .ret)

/-! ## The program -/

/-- The lock of this file. -/
def lockCode : LockCode Rwlock AcquireRead ReleaseRead AcquireWrite ReleaseWrite where
  init := rwlockInit
  acquireRead := rwlockAcquireReadlock
  acquireReadStart := .waitTurnstile
  releaseRead := rwlockReleaseReadlock
  releaseReadStart := .waitMutex
  acquireWrite := rwlockAcquireWritelock
  acquireWriteStart := .waitTurnstile
  releaseWrite := rwlockReleaseWritelock
  releaseWriteStart := .postTurnstile

abbrev Shared := ReaderWriterMain.Shared Rwlock
abbrev Reader := ReaderWriterMain.Reader AcquireRead ReleaseRead
abbrev Writer := ReaderWriterMain.Writer AcquireWrite ReleaseWrite
abbrev Thread := ReaderWriterMain.Thread AcquireRead ReleaseRead AcquireWrite ReleaseWrite

/-- The program with this lock. -/
abbrev program (numReaders numWriters loops : Nat) :
    System (Conf (Tid numReaders numWriters) Shared Thread) (Tid numReaders numWriters) :=
  main lockCode numReaders numWriters loops

end CAdvanced.ReaderWriterNostarve
