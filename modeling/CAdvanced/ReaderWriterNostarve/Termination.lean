import CAdvanced.ReaderWriter.Termination
import CAdvanced.ReaderWriterNostarve.Progress

/-!
# ReaderWriterNostarve — Termination

The program with the turnstile ends under every schedule as well; and what it leaves is
what the program without it leaves. Both print `value` at their end.
-/

namespace CAdvanced.ReaderWriterNostarve

open Interleave System ReaderWriterMain

/-- The steps that `rwlock_acquire_readlock` has left, at most. -/
def AcquireRead.steps : AcquireRead → Nat
  | .waitTurnstile => 8
  | .postTurnstile => 7
  | .waitMutex => 6
  | .loadReaders => 5
  | .storeReaders _ => 4
  | .testReaders => 3
  | .waitWritelock => 2
  | .postMutex => 1

/-- The steps that `rwlock_release_readlock` has left, at most. -/
def ReleaseRead.steps : ReleaseRead → Nat
  | .waitMutex => 6
  | .loadReaders => 5
  | .storeReaders _ => 4
  | .testReaders => 3
  | .postWritelock => 2
  | .postMutex => 1

def AcquireWrite.steps : AcquireWrite → Nat
  | .waitTurnstile => 2
  | .waitWritelock => 1

def ReleaseWrite.steps : ReleaseWrite → Nat
  | .postTurnstile => 2
  | .postWritelock => 1

theorem acquireRead_shrinks : Shrinks lockCode.acquireRead AcquireRead.steps := by
  intro rw rw' p n h
  cases p with
  | waitTurnstile | waitMutex | waitWritelock =>
      simp only [lockCode, rwlockAcquireReadlock, Option.map_eq_some_iff, Prod.mk.injEq] at h
      obtain ⟨s, -, -, rfl⟩ := h
      simp [AcquireRead.steps]
  | testReaders =>
      simp only [lockCode, rwlockAcquireReadlock, Option.some.injEq, Prod.mk.injEq] at h
      obtain ⟨-, rfl⟩ := h
      split <;> simp [AcquireRead.steps]
  | _ => cases h; simp [AcquireRead.steps]

theorem releaseRead_shrinks : Shrinks lockCode.releaseRead ReleaseRead.steps := by
  intro rw rw' p n h
  cases p with
  | waitMutex =>
      simp only [lockCode, rwlockReleaseReadlock, Option.map_eq_some_iff, Prod.mk.injEq] at h
      obtain ⟨s, -, -, rfl⟩ := h
      simp [ReleaseRead.steps]
  | testReaders =>
      simp only [lockCode, rwlockReleaseReadlock, Option.some.injEq, Prod.mk.injEq] at h
      obtain ⟨-, rfl⟩ := h
      split <;> simp [ReleaseRead.steps]
  | _ => cases h; simp [ReleaseRead.steps]

theorem acquireWrite_shrinks : Shrinks lockCode.acquireWrite AcquireWrite.steps := by
  intro rw rw' p n h
  cases p with
  | waitTurnstile | waitWritelock =>
      simp only [lockCode, rwlockAcquireWritelock, Option.map_eq_some_iff, Prod.mk.injEq] at h
      obtain ⟨s, -, -, rfl⟩ := h
      simp [AcquireWrite.steps]

theorem releaseWrite_shrinks : Shrinks lockCode.releaseWrite ReleaseWrite.steps := by
  intro rw rw' p n h
  cases p <;> cases h <;> simp [ReleaseWrite.steps]

/-- The operations of this lock end. -/
def lockMeasure : LockMeasure lockCode where
  acqR := AcquireRead.steps
  relR := ReleaseRead.steps
  acqW := AcquireWrite.steps
  relW := ReleaseWrite.steps
  stepAcqR := acquireRead_shrinks
  stepRelR := releaseRead_shrinks
  stepAcqW := acquireWrite_shrinks
  stepRelW := releaseWrite_shrinks

theorem Thread.holdsTurnstile_of_isFinished {t : Thread} (h : t.isFinished = true) :
    t.holdsTurnstile = 0 := by
  cases t with
  | reader r =>
      obtain ⟨pc, i⟩ := r
      cases pc <;> simp_all [ReaderWriterMain.Thread.isFinished]
  | writer w =>
      obtain ⟨pc, i⟩ := w
      cases pc <;> simp_all [ReaderWriterMain.Thread.isFinished]

variable {numReaders numWriters loops : Nat}

/-- Without the turnstile this is the end of `reader-writer.c`; and nobody holds the
turnstile either. -/
theorem shared_of_finished {c : Conf (Tid numReaders numWriters) Shared Thread}
    (hc : (program numReaders numWriters loops).Reachable c)
    (hall : ∀ i, (c.threads i).isFinished = true) :
    c.shared = ⟨rwlockInit, CInt.signed 32 (numWriters * loops : Nat)⟩ := by
  have hplain := (inv_erase hc).shared_of_finished (by
    intro i
    have hi := hall i
    show (erasure.thread (c.threads i)).isFinished = true
    generalize c.threads i = t at hi ⊢
    cases t with
    | reader r =>
        obtain ⟨pc, j⟩ := r
        cases pc <;> first | rfl | cases hi
    | writer w =>
        obtain ⟨pc, j⟩ := w
        cases pc <;> first | rfl | cases hi)
  have hone : OneHolder c := oneHolder_inductive.reachable hc
  rw [OneHolder, total_eq_zero fun i => Thread.holdsTurnstile_of_isFinished (hall i)] at hone
  have hvalue : (erasure.conf c).shared.value = CInt.signed 32 (numWriters * loops : Nat) := by
    rw [hplain]
  have hlock : c.shared.lock = rwlockInit := by
    have herased : c.shared.lock.erase = ReaderWriter.rwlockInit :=
      congrArg ReaderWriterMain.Shared.lock hplain
    obtain ⟨⟨⟨mutex, writelock, turnstile, readers⟩, value⟩, ts⟩ := c
    simp_all [Rwlock.erase, rwlockInit, ReaderWriter.rwlockInit]
  rw [← hlock, ← hvalue]
  rfl

theorem ends : (program numReaders numWriters loops).EndsWithin
    (numReaders * (17 * loops + 1) + numWriters * (9 * loops + 1)) fun _ c =>
      c.shared = ⟨rwlockInit, CInt.signed 32 (numWriters * loops : Nat)⟩
        ∧ ∀ i, (c.threads i).isFinished := by
  constructor
  · intro ls c hrun
    exact lockMeasure.length_le loops hrun
  · intro ls c hrun hstuck
    have hall : ∀ i, (c.threads i).isFinished = true := by
      intro i
      cases hi : (c.threads i).isFinished with
      | true => rfl
      | false => exact absurd (canMove hrun.reachable hi) hstuck
    exact ⟨shared_of_finished hrun.reachable hall, hall⟩

/-- **Both readers–writer programs end**, for any number of readers and writers, any
`loops` and under every schedule, within 15 (17 with the turnstile) steps a round of
a reader and 7 (9) a round of a writer, one more for each thread, and 4 for each thread and
4 for `main` itself; then every thread has returned, the lock is as `rwlock_init` has left
it, and `main` has printed `value`: `num_writers * loops` as an `int`, so that number itself
up to `INT_MAX`. -/
theorem readers_writer_ends (numReaders numWriters loops : Nat) :
    ((parent ReaderWriter.lockCode numReaders numWriters loops).system.EndsWithin
      (numReaders * (15 * loops + 1) + numWriters * (7 * loops + 1)
        + (4 * (numReaders + numWriters) + 4)) fun _ s =>
          s.parent = .tail (.finished (CInt.signed 32 (numWriters * loops : Nat)))
            ∧ s.conf.shared
              = ⟨ReaderWriter.rwlockInit, CInt.signed 32 (numWriters * loops : Nat)⟩
            ∧ ∀ i, (s.conf.threads i).isFinished)
    ∧ ((parent lockCode numReaders numWriters loops).system.EndsWithin
      (numReaders * (17 * loops + 1) + numWriters * (9 * loops + 1)
        + (4 * (numReaders + numWriters) + 4)) fun _ s =>
          s.parent = .tail (.finished (CInt.signed 32 (numWriters * loops : Nat)))
            ∧ s.conf.shared = ⟨rwlockInit, CInt.signed 32 (numWriters * loops : Nat)⟩
            ∧ ∀ i, (s.conf.threads i).isFinished)
    ∧ (((numWriters * loops : Nat) : Int) ≤ CInt.intMax →
        CInt.signed 32 (numWriters * loops : Nat) = (numWriters * loops : Nat)) :=
  ⟨parent_ends ReaderWriter.ends, parent_ends ends,
    (CInt.signed_eq_self_iff (Int.natCast_nonneg _)).mpr⟩

end CAdvanced.ReaderWriterNostarve
