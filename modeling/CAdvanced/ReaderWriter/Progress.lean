import CAdvanced.ReaderWriter.Invariant

/-!
# ReaderWriter — Progress

Who can move when somebody has to wait. A thread that waits for `mutex` waits
for a thread in a section, and such a thread waits for nothing but the write
lock; and while the write lock is taken, somebody uses the room: a writer
inside, a reader inside who can leave because `mutex` is free, or a reader in a
section who is not the one that waits.
-/

namespace CAdvanced.ReaderWriter

open Interleave System ReaderWriterMain

/-- Uses the room, or works in a `mutex` section, and waits for nothing. -/
@[simp] def Thread.runs (rw : Rwlock) : Thread → Bool
  | .reader ⟨.acquire .waitMutex, _⟩ | .reader ⟨.acquire .waitWritelock, _⟩ => false
  | .reader ⟨.acquire _, _⟩ => true
  | .reader ⟨.loadValue, _⟩ | .reader ⟨.printValue _, _⟩ => true
  | .reader ⟨.release .waitMutex, _⟩ => 0 < rw.mutex
  | .reader ⟨.release _, _⟩ => true
  | .writer ⟨.loadValue, _⟩ | .writer ⟨.storeValue _, _⟩ | .writer ⟨.loadPrinted, _⟩
  | .writer ⟨.printValue _, _⟩ | .writer ⟨.release _, _⟩ => true
  | _ => false

/-- A thread in a `mutex` section runs, or it is the first reader, and knows
that the readers' share of the room is not taken. -/
theorem Thread.runs_of_inMutex (rw : Rwlock) {t : Thread} (h : t.inMutex = 1) :
    t.runs rw = true ∨ t.own rw = 0 := by
  cases t with
  | writer w => cases h
  | reader r =>
      obtain ⟨pc, i⟩ := r
      cases pc with
      | acquire p => cases p <;> simp_all
      | release p => cases p <;> simp_all
      | _ => cases h

theorem Thread.runs_of_writerInside {rw : Rwlock} {t : Thread} (h : 0 < t.writerInside) :
    t.runs rw = true := by
  cases t with
  | reader r => exact absurd h (Nat.lt_irrefl 0)
  | writer w =>
      obtain ⟨pc, i⟩ := w
      cases pc <;> simp_all

theorem Thread.runs_of_readerInside {rw : Rwlock} {t : Thread} (h : 0 < t.readerInside)
    (hfree : rw.mutex = 1) : t.runs rw = true := by
  cases t with
  | writer w => exact absurd h (Nat.lt_irrefl 0)
  | reader r =>
      obtain ⟨pc, i⟩ := r
      cases pc with
      | release p => cases p <;> simp_all
      | _ => simp_all

variable {numReaders numWriters loops : Nat}

/-- **While the write lock is taken, somebody runs.** -/
theorem Inv.exists_runs {c : Conf (Tid numReaders numWriters) Shared Thread}
    (hI : Inv loops c) (h : c.shared.lock.writelock = 0) :
    ∃ i, (c.threads i).runs c.shared.lock = true := by
  by_cases hwriter : 0 < total Thread.writerInside c.threads
  · obtain ⟨i, hi⟩ := exists_of_total_pos hwriter
    exact ⟨i, Thread.runs_of_writerInside hi⟩
  · rcases hI.mutex_cases with hfree | ⟨i, hi⟩
    · -- the readers hold the room, and none of them is in a section
      have hroom := hI.outside hfree
      have hpos : 0 < total Thread.counted c.threads := by
        by_contra hnone
        rw [Rwlock.occupied, if_neg (by have := hI.count; omega)] at hroom
        omega
      obtain ⟨i, hi⟩ := exists_of_total_pos hpos
      have hout : (c.threads i).inMutex = 0 := by
        have := le_total Thread.inMutex c.threads i
        have := hI.mutex
        omega
      rw [(c.threads i).places.counted_outside hout] at hi
      exact ⟨i, Thread.runs_of_readerInside hi hfree⟩
    · have hroom := hI.inside i hi
      rcases Thread.runs_of_inMutex c.shared.lock hi with hruns | hown
      · exact ⟨i, hruns⟩
      · omega

/-- A thread that runs can move. -/
theorem thread_isSome_of_runs {s : Shared} {t : Thread} (h : t.runs s.lock = true) :
    (thread lockCode loops s t).isSome := by
  cases t with
  | reader r =>
      obtain ⟨pc, i⟩ := r
      cases pc with
      | acquire p =>
          cases p <;> simp_all [thread, reader, lockCode, rwlockAcquireReadlock]
      | release p =>
          cases p <;> simp_all [thread, reader, lockCode, rwlockReleaseReadlock, semWait_isSome]
      | _ => simp_all [thread, reader]
  | writer w =>
      obtain ⟨pc, i⟩ := w
      cases pc with
      | release p => simp [thread, writer, lockCode, rwlockReleaseWritelock]
      | _ => simp_all [thread, writer]

/-- A thread in a `mutex` section waits for nothing but the write lock. -/
theorem thread_isSome_of_inMutex {s : Shared} {t : Thread} (h : t.inMutex = 1)
    (hw : 0 < s.lock.writelock) : (thread lockCode loops s t).isSome := by
  have hw' := semWait_isSome hw
  cases t with
  | writer w => cases h
  | reader r =>
      obtain ⟨pc, i⟩ := r
      cases pc with
      | acquire p =>
          cases p <;> simp_all [thread, reader, lockCode, rwlockAcquireReadlock]
      | release p =>
          cases p <;> simp_all [thread, reader, lockCode, rwlockReleaseReadlock]
      | _ => cases h

/-- A thread that is not done can move, or it waits for a semaphore. -/
theorem thread_isSome_or_waits (loops : Nat) {s : Shared} {t : Thread} (h : t.isFinished = false) :
    (thread lockCode loops s t).isSome ∨ s.lock.mutex = 0 ∨ s.lock.writelock = 0 := by
  by_cases hm : s.lock.mutex = 0
  · exact .inr (.inl hm)
  by_cases hw : s.lock.writelock = 0
  · exact .inr (.inr hw)
  have hm' := semWait_isSome (Nat.pos_of_ne_zero hm)
  have hw' := semWait_isSome (Nat.pos_of_ne_zero hw)
  refine .inl ?_
  cases t with
  | reader r =>
      obtain ⟨pc, i⟩ := r
      cases pc with
      | acquire p => cases p <;> simp [thread, reader, lockCode, rwlockAcquireReadlock, hm', hw']
      | release p => cases p <;> simp [thread, reader, lockCode, rwlockReleaseReadlock, hm']
      | finished => cases h
      | _ => simp [thread, reader]
  | writer w =>
      obtain ⟨pc, i⟩ := w
      cases pc with
      | acquire p => simp [thread, writer, lockCode, rwlockAcquireWritelock, hw']
      | release p => simp [thread, writer, lockCode, rwlockReleaseWritelock]
      | finished => cases h
      | _ => simp [thread, writer]

theorem canMove_of_runs {c : Conf (Tid numReaders numWriters) Shared Thread}
    {i : Tid numReaders numWriters} (h : (c.threads i).runs c.shared.lock = true) :
    (program numReaders numWriters loops).CanMove c :=
  ⟨i, Conf.step_isSome (thread_isSome_of_runs h)⟩

/-- A state with an unfinished thread has a step. -/
theorem Inv.canMove {c : Conf (Tid numReaders numWriters) Shared Thread} (hI : Inv loops c)
    {i : Tid numReaders numWriters} (hi : (c.threads i).isFinished = false) :
    (program numReaders numWriters loops).CanMove c := by
  by_cases hw : c.shared.lock.writelock = 0
  · obtain ⟨j, hj⟩ := hI.exists_runs hw
    exact canMove_of_runs hj
  rcases thread_isSome_or_waits loops hi with hmove | hm | hw'
  · exact ⟨i, Conf.step_isSome hmove⟩
  · -- `mutex` is taken by a thread that does not wait for the write lock
    obtain ⟨j, hj⟩ := hI.mutex_cases.resolve_left (by omega)
    exact ⟨j, Conf.step_isSome (thread_isSome_of_inMutex hj (Nat.pos_of_ne_zero hw))⟩
  · exact absurd hw' hw

end CAdvanced.ReaderWriter
