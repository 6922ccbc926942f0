import CAdvanced.ReaderWriter.Progress
import CAdvanced.ReaderWriterNostarve.Bypass
import CAdvanced.ReaderWriterNostarve.Refinement

/-!
# ReaderWriterNostarve — Progress

Deadlock freedom of both locks. In the turnstile version a thread may also wait
for the turnstile; its holder waits for nothing but the write lock, and while
that is taken the thread that runs in the erased state runs here as well.
-/

namespace CAdvanced.ReaderWriterNostarve

open Interleave System ReaderWriterMain

/-- A thread that runs in the erased state can move. -/
theorem thread_isSome_of_runs {loops : Nat} {s : Shared} {t : Thread}
    (h : ReaderWriter.Thread.runs s.lock.erase (erasure.thread t) = true) :
    (thread lockCode loops s t).isSome := by
  cases t with
  | reader r =>
      obtain ⟨pc, i⟩ := r
      cases pc with
      | acquire p =>
          cases p <;> simp_all [erasure, LockErasure.thread, LockErasure.reader,
            AcquireRead.erase, thread, reader, lockCode, rwlockAcquireReadlock]
      | release p =>
          cases p with
          | waitMutex =>
              have hfree := semWait_isSome (s := s.lock.mutex) (of_decide_eq_true h)
              simp [thread, reader, lockCode, rwlockReleaseReadlock, hfree]
          | _ => simp [thread, reader, lockCode, rwlockReleaseReadlock]
      | loop | finished => cases h
      | _ => simp [thread, reader]
  | writer w =>
      obtain ⟨pc, i⟩ := w
      cases pc with
      | acquire p => cases p <;> cases h
      | release p => cases p <;> simp [thread, writer, lockCode, rwlockReleaseWritelock]
      | loop | finished => cases h
      | _ => simp [thread, writer]

/-- A thread in a `mutex` section waits for nothing but the write lock. -/
theorem thread_isSome_of_inMutex {loops : Nat} {s : Shared} {t : Thread}
    (h : ReaderWriter.Thread.inMutex (erasure.thread t) = 1)
    (hw : 0 < s.lock.writelock) : (thread lockCode loops s t).isSome := by
  have hw' := semWait_isSome hw
  cases t with
  | writer w => cases h
  | reader r =>
      obtain ⟨pc, i⟩ := r
      cases pc with
      | acquire p =>
          cases p <;> simp_all [erasure, LockErasure.thread, LockErasure.reader,
            AcquireRead.erase, thread, reader, lockCode, rwlockAcquireReadlock]
      | release p =>
          cases p <;> simp_all [erasure, LockErasure.thread, LockErasure.reader,
            ReleaseRead.erase, thread, reader, lockCode, rwlockReleaseReadlock]
      | _ => cases h

/-- Neither does the holder of the turnstile. -/
theorem thread_isSome_of_holdsTurnstile {loops : Nat} {s : Shared} {t : Thread}
    (h : 0 < t.holdsTurnstile) (hw : 0 < s.lock.writelock) :
    (thread lockCode loops s t).isSome := by
  have hw' := semWait_isSome hw
  cases t with
  | reader r =>
      obtain ⟨pc, i⟩ := r
      cases pc with
      | acquire p =>
          cases p <;> simp_all [thread, reader, lockCode, rwlockAcquireReadlock]
      | _ => exact absurd h (Nat.lt_irrefl 0)
  | writer w =>
      obtain ⟨pc, i⟩ := w
      cases pc with
      | acquire p =>
          cases p <;> simp_all [thread, writer, lockCode, rwlockAcquireWritelock]
      | release p => cases p <;> simp_all [thread, writer, lockCode, rwlockReleaseWritelock]
      | loop | finished => exact absurd h (Nat.lt_irrefl 0)
      | _ => simp [thread, writer]

/-- A thread that is not done can move, or it waits for a semaphore. -/
theorem thread_isSome_or_waits (loops : Nat) {s : Shared} {t : Thread}
    (h : t.isFinished = false) : (thread lockCode loops s t).isSome
      ∨ s.lock.mutex = 0 ∨ s.lock.writelock = 0 ∨ s.lock.turnstile = 0 := by
  by_cases hm : s.lock.mutex = 0
  · exact .inr (.inl hm)
  by_cases hw : s.lock.writelock = 0
  · exact .inr (.inr (.inl hw))
  by_cases ht : s.lock.turnstile = 0
  · exact .inr (.inr (.inr ht))
  have hm' := semWait_isSome (Nat.pos_of_ne_zero hm)
  have hw' := semWait_isSome (Nat.pos_of_ne_zero hw)
  have ht' := semWait_isSome (Nat.pos_of_ne_zero ht)
  refine .inl ?_
  cases t with
  | reader r =>
      obtain ⟨pc, i⟩ := r
      cases pc with
      | acquire p =>
          cases p <;> simp [thread, reader, lockCode, rwlockAcquireReadlock, hm', hw', ht']
      | release p => cases p <;> simp [thread, reader, lockCode, rwlockReleaseReadlock, hm']
      | finished => cases h
      | _ => simp [thread, reader]
  | writer w =>
      obtain ⟨pc, i⟩ := w
      cases pc with
      | acquire p => cases p <;> simp [thread, writer, lockCode, rwlockAcquireWritelock, hw', ht']
      | release p => cases p <;> simp [thread, writer, lockCode, rwlockReleaseWritelock]
      | finished => cases h
      | _ => simp [thread, writer]

variable {numReaders numWriters loops : Nat}

/-- A state with an unfinished thread has a step. -/
theorem canMove {c : Conf (Tid numReaders numWriters) Shared Thread}
    (hc : (program numReaders numWriters loops).Reachable c)
    {i : Tid numReaders numWriters} (hi : (c.threads i).isFinished = false) :
    (program numReaders numWriters loops).CanMove c := by
  have hI := inv_erase hc
  have hone : OneHolder c := oneHolder_inductive.reachable hc
  by_cases hw : c.shared.lock.writelock = 0
  · obtain ⟨j, hj⟩ := hI.exists_runs hw
    exact ⟨j, Conf.step_isSome (thread_isSome_of_runs hj)⟩
  have hw' := Nat.pos_of_ne_zero hw
  rcases thread_isSome_or_waits loops hi with hmove | hm | hwait | ht
  · exact ⟨i, Conf.step_isSome hmove⟩
  · have hbusy : (erasure.conf c).shared.lock.mutex ≠ 1 := by
      intro hfree
      exact absurd (hm.symm.trans hfree) Nat.zero_ne_one
    obtain ⟨j, hj⟩ := hI.mutex_cases.resolve_left hbusy
    exact ⟨j, Conf.step_isSome (thread_isSome_of_inMutex hj hw')⟩
  · exact absurd hwait hw
  · unfold OneHolder at hone
    obtain ⟨j, hj⟩ := exists_of_total_pos
      (show 0 < total Thread.holdsTurnstile c.threads by omega)
    exact ⟨j, Conf.step_isSome (thread_isSome_of_holdsTurnstile hj hw')⟩

/-- **Deadlock freedom**, of both readers–writer locks: in every reachable state
in which some thread has not finished, some thread can take a step. -/
theorem readers_writer_deadlock_free (numReaders numWriters loops : Nat) :
    (∀ c, (ReaderWriter.program numReaders numWriters loops).Reachable c →
      (∃ i, (c.threads i).isFinished = false) →
      (ReaderWriter.program numReaders numWriters loops).CanMove c)
    ∧ (∀ c, (program numReaders numWriters loops).Reachable c →
      (∃ i, (c.threads i).isFinished = false) →
      (program numReaders numWriters loops).CanMove c) := by
  constructor
  · rintro c hc ⟨i, hi⟩
    have hI : ReaderWriter.Inv loops c := ReaderWriter.inv_inductive.reachable hc
    exact hI.canMove hi
  · rintro c hc ⟨i, hi⟩
    exact canMove hc hi

/-- A writer inside, a first reader that waits for it with `mutex` taken, and in
the turnstile version one that waits at the turnstile: both can go on. -/
theorem readers_writer_deadlock_free_blocked :
    (∃ c, (ReaderWriter.program 1 1 1).Reachable c
      ∧ (ReaderWriter.program 1 1 1).next (.inl 0) c = none
      ∧ (ReaderWriter.program 1 1 1).CanMove c)
    ∧ (∃ c, (program 1 1 1).Reachable c ∧ (program 1 1 1).next (.inl 0) c = none
      ∧ (program 1 1 1).CanMove c) := by
  obtain ⟨c, hc, hwaits⟩ := Option.any_eq_true _ _ |>.mp
    (show (((ReaderWriter.program 1 1 1).exec
        (List.replicate 2 (.inr 0) ++ List.replicate 5 (.inl 0))
        (initial ReaderWriter.lockCode 1 1)).any fun c =>
      ((ReaderWriter.program 1 1 1).next (.inl 0) c).isNone
        ∧ (c.threads (.inl 0)).isFinished = false) = true by decide +kernel)
  obtain ⟨d, hd, hwaits'⟩ := Option.any_eq_true _ _ |>.mp
    (show (((program 1 1 1).exec (List.replicate 3 (.inr 0) ++ [.inl 0])
        (initial lockCode 1 1)).any fun c =>
      ((program 1 1 1).next (.inl 0) c).isNone
        ∧ (c.threads (.inl 0)).isFinished = false) = true by decide +kernel)
  obtain ⟨hnone, hbusy⟩ := of_decide_eq_true hwaits
  obtain ⟨hnone', hbusy'⟩ := of_decide_eq_true hwaits'
  obtain ⟨hplain, hnostarve⟩ := readers_writer_deadlock_free 1 1 1
  exact ⟨⟨c, ⟨_, hc⟩, Option.isNone_iff_eq_none.mp hnone, hplain c ⟨_, hc⟩ ⟨_, hbusy⟩⟩,
    ⟨d, ⟨_, hd⟩, Option.isNone_iff_eq_none.mp hnone', hnostarve d ⟨_, hd⟩ ⟨_, hbusy'⟩⟩⟩

end CAdvanced.ReaderWriterNostarve
