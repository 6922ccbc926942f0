import CAdvanced.ReaderWriterMain.Model

/-!
# ReaderWriter — Model

The lock of `reader-writer.c`: any number of readers or one writer. One step
is one semaphore operation or one load or store of `readers`; `readers++` is
two steps, and the loaded value travels in the program point.
-/

namespace CAdvanced.ReaderWriter

open Interleave ReaderWriterMain

/-- `rwlock_t`. -/
structure Rwlock where
  mutex : Nat
  writelock : Nat
  readers : Int
  deriving DecidableEq, Repr

/-- `rwlock_init`. -/
def rwlockInit : Rwlock := { mutex := 1, writelock := 1, readers := 0 }

/-- The program points of `rwlock_acquire_readlock`. -/
inductive AcquireRead where
  | waitMutex
  | loadReaders
  | storeReaders (r : Int)
  | testReaders
  | waitWritelock
  | postMutex
  deriving DecidableEq, Repr

/-- `rwlock_acquire_readlock`, one step. -/
def rwlockAcquireReadlock (rw : Rwlock) : AcquireRead → Option (Rwlock × Ctl AcquireRead)
  | .waitMutex => (semWait rw.mutex).map fun s =>
      ({ rw with mutex := s }, .goto .loadReaders)
  | .loadReaders => some (rw, .goto (.storeReaders rw.readers))
  | .storeReaders r => some ({ rw with readers := r + 1 }, .goto .testReaders)
  -- the first reader takes the write lock, inside the mutex section
  | .testReaders => some (rw, .goto (if rw.readers = 1 then .waitWritelock else .postMutex))
  | .waitWritelock => (semWait rw.writelock).map fun s =>
      ({ rw with writelock := s }, .goto .postMutex)
  | .postMutex => some ({ rw with mutex := semPost rw.mutex }, .ret)

/-- The program points of `rwlock_release_readlock`. -/
inductive ReleaseRead where
  | waitMutex
  | loadReaders
  | storeReaders (r : Int)
  | testReaders
  | postWritelock
  | postMutex
  deriving DecidableEq, Repr

/-- `rwlock_release_readlock`, one step. -/
def rwlockReleaseReadlock (rw : Rwlock) : ReleaseRead → Option (Rwlock × Ctl ReleaseRead)
  | .waitMutex => (semWait rw.mutex).map fun s =>
      ({ rw with mutex := s }, .goto .loadReaders)
  | .loadReaders => some (rw, .goto (.storeReaders rw.readers))
  | .storeReaders r => some ({ rw with readers := r - 1 }, .goto .testReaders)
  -- the last reader gives the write lock back, whoever took it
  | .testReaders => some (rw, .goto (if rw.readers = 0 then .postWritelock else .postMutex))
  | .postWritelock =>
      some ({ rw with writelock := semPost rw.writelock }, .goto .postMutex)
  | .postMutex => some ({ rw with mutex := semPost rw.mutex }, .ret)

/-- The program point of `rwlock_acquire_writelock`. -/
inductive AcquireWrite where
  | waitWritelock
  deriving DecidableEq, Repr

/-- `rwlock_acquire_writelock`, one step. -/
def rwlockAcquireWritelock (rw : Rwlock) : AcquireWrite → Option (Rwlock × Ctl AcquireWrite)
  | .waitWritelock => (semWait rw.writelock).map fun s => ({ rw with writelock := s }, .ret)

/-- The program point of `rwlock_release_writelock`. -/
inductive ReleaseWrite where
  | postWritelock
  deriving DecidableEq, Repr

/-- `rwlock_release_writelock`, one step. -/
def rwlockReleaseWritelock (rw : Rwlock) : ReleaseWrite → Option (Rwlock × Ctl ReleaseWrite)
  | .postWritelock => some ({ rw with writelock := semPost rw.writelock }, .ret)

/-! ## The program -/

/-- The lock of this file. -/
def lockCode : LockCode Rwlock AcquireRead ReleaseRead AcquireWrite ReleaseWrite where
  init := rwlockInit
  acquireRead := rwlockAcquireReadlock
  acquireReadStart := .waitMutex
  releaseRead := rwlockReleaseReadlock
  releaseReadStart := .waitMutex
  acquireWrite := rwlockAcquireWritelock
  acquireWriteStart := .waitWritelock
  releaseWrite := rwlockReleaseWritelock
  releaseWriteStart := .postWritelock

abbrev Shared := ReaderWriterMain.Shared Rwlock
abbrev Reader := ReaderWriterMain.Reader AcquireRead ReleaseRead
abbrev Writer := ReaderWriterMain.Writer AcquireWrite ReleaseWrite
abbrev Thread := ReaderWriterMain.Thread AcquireRead ReleaseRead AcquireWrite ReleaseWrite

/-- The program with this lock. -/
abbrev program (numReaders numWriters loops : Nat) :
    System (Conf (Tid numReaders numWriters) Shared Thread) (Tid numReaders numWriters) :=
  main lockCode numReaders numWriters loops

end CAdvanced.ReaderWriter
