import CAdvanced.ReaderWriterMain.Erasure
import CAdvanced.ReaderWriter.Invariant
import CAdvanced.ReaderWriterNostarve.Model

/-!
# ReaderWriterNostarve — Refinement

The turnstile only delays. Erasing the semaphore and its waits and posts maps
`reader-writer-nostarve.c` onto `reader-writer.c`: a thread before or after its
turnstile step stands, erased, at the semaphore operation that follows. In
`rwlock_release_writelock` that is `sem_post(&writelock)`, so between the two
posts the writer still owns the write lock, and exclusion carries over.
-/

namespace CAdvanced.ReaderWriterNostarve

open Interleave System ReaderWriterMain

/-! ## The erasure -/

/-- `rwlock_t` without its turnstile. -/
def Rwlock.erase (rw : Rwlock) : ReaderWriter.Rwlock := ⟨rw.mutex, rw.writelock, rw.readers⟩

def AcquireRead.erase : AcquireRead → ReaderWriter.AcquireRead
  | .waitTurnstile | .postTurnstile | .waitMutex => .waitMutex
  | .loadReaders => .loadReaders
  | .storeReaders r => .storeReaders r
  | .testReaders => .testReaders
  | .waitWritelock => .waitWritelock
  | .postMutex => .postMutex

def ReleaseRead.erase : ReleaseRead → ReaderWriter.ReleaseRead
  | .waitMutex => .waitMutex
  | .loadReaders => .loadReaders
  | .storeReaders r => .storeReaders r
  | .testReaders => .testReaders
  | .postWritelock => .postWritelock
  | .postMutex => .postMutex

def AcquireWrite.erase : AcquireWrite → ReaderWriter.AcquireWrite
  | .waitTurnstile | .waitWritelock => .waitWritelock

def ReleaseWrite.erase : ReleaseWrite → ReaderWriter.ReleaseWrite
  | .postTurnstile | .postWritelock => .postWritelock

/-- The step is a wait or a post of the turnstile. -/
def AcquireRead.atTurnstile : AcquireRead → Bool
  | .waitTurnstile | .postTurnstile => true
  | _ => false

def AcquireWrite.atTurnstile : AcquireWrite → Bool
  | .waitTurnstile => true
  | .waitWritelock => false

def ReleaseWrite.atTurnstile : ReleaseWrite → Bool
  | .postTurnstile => true
  | .postWritelock => false

theorem acquireRead_erases : ErasesTo Rwlock.erase AcquireRead.erase AcquireRead.atTurnstile
    rwlockAcquireReadlock ReaderWriter.rwlockAcquireReadlock := by
  intro l l' p n h
  cases p with
  | waitTurnstile | waitMutex | waitWritelock =>
      simp only [rwlockAcquireReadlock, Option.map_eq_some_iff, semWait_eq_some,
        Prod.mk.injEq] at h
      obtain ⟨s, hs, rfl, rfl⟩ := h
      simp [AcquireRead.atTurnstile, AcquireRead.erase, Rwlock.erase,
        ReaderWriter.rwlockAcquireReadlock, hs, semWait]
  | testReaders =>
      simp only [rwlockAcquireReadlock, Option.some.injEq, Prod.mk.injEq] at h
      obtain ⟨rfl, rfl⟩ := h
      by_cases hr : l.readers = 1 <;> simp [AcquireRead.atTurnstile, AcquireRead.erase,
        Rwlock.erase, ReaderWriter.rwlockAcquireReadlock, hr]
  | postTurnstile | loadReaders | storeReaders r | postMutex =>
      simp only [rwlockAcquireReadlock, Option.some.injEq, Prod.mk.injEq] at h
      obtain ⟨rfl, rfl⟩ := h
      simp [AcquireRead.atTurnstile, AcquireRead.erase, Rwlock.erase,
        ReaderWriter.rwlockAcquireReadlock]

theorem releaseRead_erases : ErasesTo Rwlock.erase ReleaseRead.erase (fun _ => false)
    rwlockReleaseReadlock ReaderWriter.rwlockReleaseReadlock := by
  intro l l' p n h
  cases p with
  | waitMutex =>
      simp only [rwlockReleaseReadlock, Option.map_eq_some_iff, semWait_eq_some,
        Prod.mk.injEq] at h
      obtain ⟨s, hs, rfl, rfl⟩ := h
      simp [ReleaseRead.erase, Rwlock.erase, ReaderWriter.rwlockReleaseReadlock, hs, semWait]
  | testReaders =>
      simp only [rwlockReleaseReadlock, Option.some.injEq, Prod.mk.injEq] at h
      obtain ⟨rfl, rfl⟩ := h
      by_cases hr : l.readers = 0 <;> simp [ReleaseRead.erase, Rwlock.erase,
        ReaderWriter.rwlockReleaseReadlock, hr]
  | loadReaders | storeReaders r | postWritelock | postMutex =>
      simp only [rwlockReleaseReadlock, Option.some.injEq, Prod.mk.injEq] at h
      obtain ⟨rfl, rfl⟩ := h
      simp [ReleaseRead.erase, Rwlock.erase, ReaderWriter.rwlockReleaseReadlock]

theorem acquireWrite_erases : ErasesTo Rwlock.erase AcquireWrite.erase
    AcquireWrite.atTurnstile rwlockAcquireWritelock ReaderWriter.rwlockAcquireWritelock := by
  intro l l' p n h
  cases p with
  | waitTurnstile | waitWritelock =>
      simp only [rwlockAcquireWritelock, Option.map_eq_some_iff, semWait_eq_some,
        Prod.mk.injEq] at h
      obtain ⟨s, hs, rfl, rfl⟩ := h
      simp [AcquireWrite.atTurnstile, AcquireWrite.erase, Rwlock.erase,
        ReaderWriter.rwlockAcquireWritelock, hs, semWait]

theorem releaseWrite_erases : ErasesTo Rwlock.erase ReleaseWrite.erase
    ReleaseWrite.atTurnstile rwlockReleaseWritelock ReaderWriter.rwlockReleaseWritelock := by
  intro l l' p n h
  cases p with
  | postTurnstile | postWritelock =>
      simp only [rwlockReleaseWritelock, Option.some.injEq, Prod.mk.injEq] at h
      obtain ⟨rfl, rfl⟩ := h
      simp [ReleaseWrite.atTurnstile, ReleaseWrite.erase, Rwlock.erase,
        ReaderWriter.rwlockReleaseWritelock]

/-- This lock is the lock of `reader-writer.c` with a turnstile. -/
def erasure : LockErasure lockCode ReaderWriter.lockCode where
  lock := Rwlock.erase
  acqR := AcquireRead.erase
  relR := ReleaseRead.erase
  acqW := AcquireWrite.erase
  relW := ReleaseWrite.erase
  silentAcqR := AcquireRead.atTurnstile
  silentAcqW := AcquireWrite.atTurnstile
  silentRelW := ReleaseWrite.atTurnstile
  init := rfl
  startAcqR := rfl
  startRelR := rfl
  startAcqW := rfl
  startRelW := rfl
  stepAcqR := acquireRead_erases
  stepRelR := releaseRead_erases
  stepAcqW := acquireWrite_erases
  stepRelW := releaseWrite_erases

/-! ## Who is inside -/

/-- A reader that has completed `rwlock_acquire_readlock` and not begun
`rwlock_release_readlock`. -/
def Thread.readerInside : Thread → Nat
  | .reader ⟨.loadValue, _⟩ | .reader ⟨.printValue _, _⟩
  | .reader ⟨.release .waitMutex, _⟩ => 1
  | _ => 0

/-- A writer between its `sem_wait(&writelock)` and its `sem_post(&writelock)`;
it reopens the turnstile in between. -/
def Thread.writerInside : Thread → Nat
  | .writer ⟨.loadValue, _⟩ | .writer ⟨.storeValue _, _⟩ | .writer ⟨.loadPrinted, _⟩
  | .writer ⟨.printValue _, _⟩ | .writer ⟨.release _, _⟩ => 1
  | _ => 0

theorem readerInside_erase (t : Thread) :
    ReaderWriter.Thread.readerInside (erasure.thread t) = t.readerInside := by
  cases t with
  | reader r =>
      obtain ⟨pc, i⟩ := r
      cases pc with
      | release p => cases p <;> rfl
      | _ => rfl
  | writer w =>
      obtain ⟨pc, i⟩ := w
      cases pc <;> rfl

theorem writerInside_erase (t : Thread) :
    ReaderWriter.Thread.writerInside (erasure.thread t) = t.writerInside := by
  cases t with
  | reader r =>
      obtain ⟨pc, i⟩ := r
      cases pc <;> rfl
  | writer w =>
      obtain ⟨pc, i⟩ := w
      cases pc <;> rfl

variable {numReaders numWriters loops : Nat}

/-- The erased run, from any reachable state. -/
theorem erase_reaches {ls : List (Tid numReaders numWriters)}
    {c : Conf (Tid numReaders numWriters) Shared Thread}
    (h : (program numReaders numWriters loops).Reaches ls c) :
    (ReaderWriter.program numReaders numWriters loops).Reaches
      ((program numReaders numWriters loops).trace erasure.visible ls
        (initial lockCode numReaders numWriters))
      (erasure.conf c) := by
  obtain ⟨a, ha, rfl⟩ := erasure.simulation.reaches h
  exact ha

/-- The invariant of `reader-writer.c` holds of the erased state. -/
theorem inv_erase {c : Conf (Tid numReaders numWriters) Shared Thread}
    (h : (program numReaders numWriters loops).Reachable c) :
    ReaderWriter.Inv loops (erasure.conf c) := by
  obtain ⟨ls, hls⟩ := h
  exact ReaderWriter.inv_inductive.reachable (erase_reaches hls).reachable

/-- **Refinement.** Without its turnstile steps every run is a run of
`reader-writer.c` by the same threads, with the same `readers` and `value` and
the same entries to and exits from the critical section in the same order.
Hence no writer is inside together with a reader or with another writer. -/
theorem nostarve_refines_plain (numReaders numWriters loops : Nat)
    {ls : List (Tid numReaders numWriters)}
    {c : Conf (Tid numReaders numWriters) Shared Thread}
    (h : (program numReaders numWriters loops).Reaches ls c) :
    ∃ (ls' : List (Tid numReaders numWriters))
      (c' : Conf (Tid numReaders numWriters) ReaderWriter.Shared ReaderWriter.Thread),
      ls' = (program numReaders numWriters loops).trace erasure.visible ls
        (initial lockCode numReaders numWriters)
      ∧ (ReaderWriter.program numReaders numWriters loops).Reaches ls' c'
      ∧ (∀ i, c'.threads i = erasure.thread (c.threads i))
      ∧ c'.shared.lock = c.shared.lock.erase
      ∧ c'.shared.value = c.shared.value
      ∧ (program numReaders numWriters loops).trace
          (csEvent lockCode numReaders numWriters loops Rwlock.readers) ls
          (initial lockCode numReaders numWriters)
        = (ReaderWriter.program numReaders numWriters loops).trace
          (csEvent ReaderWriter.lockCode numReaders numWriters loops
            ReaderWriter.Rwlock.readers) ls'
          (initial ReaderWriter.lockCode numReaders numWriters)
      ∧ (∀ i j, 0 < (c.threads i).writerInside → (c.threads j).readerInside = 0)
      ∧ (∀ i j, 0 < (c.threads i).writerInside → 0 < (c.threads j).writerInside → i = j) := by
  have hplain := erase_reaches h
  have hI := inv_erase h.reachable
  refine ⟨_, erasure.conf c, rfl, hplain, fun _ => rfl, rfl, rfl, ?events, ?reader, ?writer⟩
  case events =>
    refine erasure.simulation.trace_eq ?_ erasure.conf_initial.symm h
    rintro i c c' _ rfl hstep
    exact erasure.csEvent_visible ReaderWriter.Rwlock.readers hstep
  case reader =>
    intro i j hi
    rw [← writerInside_erase] at hi
    rw [← readerInside_erase]
    exact hI.no_reader hi j
  case writer =>
    intro i j hi hj
    rw [← writerInside_erase] at hi hj
    exact hI.writer_unique hi hj

/-- A writer takes the turnstile while a reader is inside: the four turnstile
steps go, and both visits to the critical section stay. -/
theorem nostarve_refines_plain_overlap :
    ∃ ls' c', (ReaderWriter.program 1 1 1).Reaches ls' c' ∧ ls'.length = 24
      ∧ ((ReaderWriter.program 1 1 1).trace
          (csEvent ReaderWriter.lockCode 1 1 1 ReaderWriter.Rwlock.readers) ls'
          (initial ReaderWriter.lockCode 1 1)).map (fun e => (e.tid, e.enters))
        = [(.inl 0, true), (.inl 0, false), (.inr 0, true), (.inr 0, false)] := by
  let ls : List (Tid 1 1) := List.replicate 11 (.inl 0) ++ List.replicate 2 (.inr 0)
    ++ List.replicate 7 (.inl 0) ++ List.replicate 8 (.inr 0)
  obtain ⟨c, hrun⟩ := Option.isSome_iff_exists.mp
    (show ((program 1 1 1).exec ls (initial lockCode 1 1)).isSome by decide +kernel)
  obtain ⟨_, c', rfl, hplain, -, -, -, hevents, -⟩ := nostarve_refines_plain 1 1 1 hrun
  refine ⟨_, c', hplain, ?_, ?_⟩
  · decide +kernel
  · rw [← hevents]
    decide +kernel

end CAdvanced.ReaderWriterNostarve
