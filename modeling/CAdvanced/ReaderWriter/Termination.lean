import CAdvanced.ReaderWriterMain.Termination
import CAdvanced.ReaderWriter.Progress

/-!
# ReaderWriter — Termination

The lock starves writers, and yet the program ends under every schedule: a writer may
be passed over by every reader, but the readers come to the end of their loops. What is
left at the end is the lock as `rwlock_init` has made it, and `value` without a lost
update.
-/

namespace CAdvanced.ReaderWriter

open Interleave System ReaderWriterMain

/-- The steps that `rwlock_acquire_readlock` has left, at most. -/
def AcquireRead.steps : AcquireRead → Nat
  | .waitMutex => 6
  | .loadReaders => 5
  | .storeReaders _ => 4
  | .testReaders => 3
  | .waitWritelock => 2
  | .postMutex => 1

/-- The steps that `rwlock_release_readlock` has left, at most. -/
def ReleaseRead.steps : ReleaseRead → Nat
  | .waitMutex => 6
  | .loadReaders => 5
  | .storeReaders _ => 4
  | .testReaders => 3
  | .postWritelock => 2
  | .postMutex => 1

theorem acquireRead_shrinks : Shrinks lockCode.acquireRead AcquireRead.steps := by
  intro rw rw' p n h
  cases p with
  | waitMutex | waitWritelock =>
      simp only [lockCode, rwlockAcquireReadlock, Option.map_eq_some_iff, Prod.mk.injEq] at h
      obtain ⟨s, -, -, rfl⟩ := h
      simp [AcquireRead.steps]
  | testReaders =>
      simp only [lockCode, rwlockAcquireReadlock, Option.some.injEq, Prod.mk.injEq] at h
      obtain ⟨-, rfl⟩ := h
      split <;> simp [AcquireRead.steps]
  | _ => cases h; simp [AcquireRead.steps]

theorem releaseRead_shrinks : Shrinks lockCode.releaseRead ReleaseRead.steps := by
  intro rw rw' p n h
  cases p with
  | waitMutex =>
      simp only [lockCode, rwlockReleaseReadlock, Option.map_eq_some_iff, Prod.mk.injEq] at h
      obtain ⟨s, -, -, rfl⟩ := h
      simp [ReleaseRead.steps]
  | testReaders =>
      simp only [lockCode, rwlockReleaseReadlock, Option.some.injEq, Prod.mk.injEq] at h
      obtain ⟨-, rfl⟩ := h
      split <;> simp [ReleaseRead.steps]
  | _ => cases h; simp [ReleaseRead.steps]

theorem acquireWrite_shrinks : Shrinks lockCode.acquireWrite fun _ => 1 := by
  intro rw rw' p n h
  cases p
  simp only [lockCode, rwlockAcquireWritelock, Option.map_eq_some_iff, Prod.mk.injEq] at h
  obtain ⟨s, -, -, rfl⟩ := h
  simp

theorem releaseWrite_shrinks : Shrinks lockCode.releaseWrite fun _ => 1 := by
  intro rw rw' p n h
  cases p
  cases h
  simp

/-- The operations of this lock end. -/
def lockMeasure : LockMeasure lockCode where
  acqR := AcquireRead.steps
  relR := ReleaseRead.steps
  acqW _ := 1
  relW _ := 1
  stepAcqR := acquireRead_shrinks
  stepRelR := releaseRead_shrinks
  stepAcqW := acquireWrite_shrinks
  stepRelW := releaseWrite_shrinks

/-- A thread that has returned is nowhere in the lock. -/
theorem Thread.of_isFinished {t : Thread} (h : t.isFinished = true) :
    t.inMutex = 0 ∧ t.counted = 0 ∧ t.writerInside = 0 := by
  cases t with
  | reader r =>
      obtain ⟨pc, i⟩ := r
      cases pc <;> simp_all [ReaderWriterMain.Thread.isFinished]
  | writer w =>
      obtain ⟨pc, i⟩ := w
      cases pc <;> simp_all [ReaderWriterMain.Thread.isFinished]

variable {numReaders numWriters loops : Nat}

/-- When all have returned, the lock is free and unread, and no increment is missing. -/
theorem Inv.shared_of_finished {c : Conf (Tid numReaders numWriters) Shared Thread}
    (hI : Inv loops c) (hall : ∀ i, (c.threads i).isFinished = true) :
    c.shared = ⟨rwlockInit, CInt.signed 32 (numWriters * loops : Nat)⟩ := by
  have hmutex := hI.mutex
  have hcount := hI.count
  have hvalue := hI.value
  rw [total_eq_zero fun i => (Thread.of_isFinished (hall i)).1] at hmutex
  rw [total_eq_zero fun i => (Thread.of_isFinished (hall i)).2.1] at hcount
  rw [total_eq_zero fun i => ReaderWriterMain.Thread.toWrite_of_isFinished (hall i)] at hvalue
  have hroom := hI.outside hmutex
  rw [total_eq_zero fun i => (Thread.of_isFinished (hall i)).2.2, Rwlock.occupied, hcount]
    at hroom
  have hlock : c.shared.lock = rwlockInit := by
    obtain ⟨⟨⟨mutex, writelock, readers⟩, value⟩, ts⟩ := c
    simp_all [rwlockInit]
  rw [Nat.cast_zero, Int.sub_zero] at hvalue
  rw [← hlock, ← hvalue]

theorem ends : (program numReaders numWriters loops).EndsWithin
    (numReaders * (15 * loops + 1) + numWriters * (7 * loops + 1)) fun _ c =>
      c.shared = ⟨rwlockInit, CInt.signed 32 (numWriters * loops : Nat)⟩
        ∧ ∀ i, (c.threads i).isFinished := by
  constructor
  · intro ls c hrun
    exact lockMeasure.length_le loops hrun
  · intro ls c hrun hstuck
    have hI : Inv loops c := inv_inductive.reachable hrun.reachable
    have hall : ∀ i, (c.threads i).isFinished = true := by
      intro i
      cases hi : (c.threads i).isFinished with
      | true => rfl
      | false => exact absurd (hI.canMove hi) hstuck
    exact ⟨hI.shared_of_finished hall, hall⟩

end CAdvanced.ReaderWriter
