import CAdvanced.ReaderWriterNostarve.Bypass
import CAdvanced.ReaderWriterNostarve.Refinement

/-!
# ReaderWriterNostarve — Handoff

"When last reader leaves critical section, one writer enters next", says the
header. It holds unless a reader has gone through the turnstile and stopped
before `sem_wait(&rw->mutex)`: the leaving reader frees `mutex` and the write
lock, and then that reader takes both, before the writer that holds the
turnstile.
-/

namespace CAdvanced.ReaderWriterNostarve

open Interleave System ReaderWriterMain

/-- At a `sem_wait(&rw->writelock)`: a writer, or a first reader. -/
@[simp] def Thread.entersRoom : Thread → Bool
  | .reader ⟨.acquire .waitWritelock, _⟩ | .writer ⟨.acquire .waitWritelock, _⟩ => true
  | _ => false

/-- A reader between its turnstile and its `sem_wait(&rw->mutex)`. -/
@[simp] def Thread.waitsMutex : Thread → Bool
  | .reader ⟨.acquire .waitMutex, _⟩ => true
  | _ => false

variable {numReaders numWriters loops : Nat}

/-- Whoever enters the critical section first from `c` on is `W`. -/
def NextToEnter (loops : Nat) (W : Tid numReaders numWriters)
    (c : Conf (Tid numReaders numWriters) Shared Thread) : Prop :=
  ∀ ls c' i, (program numReaders numWriters loops).exec ls c = some c' →
    (program numReaders numWriters loops).tally (movedFrom Thread.entersRoom) ls c = 0 →
    (∃ c'', (program numReaders numWriters loops).next i c' = some c'') →
    (c'.threads i).entersRoom = true → i = W

/-! ## Nobody on the way -/

/-- A thread past the turnstile is at `mutex` or inside its section. -/
theorem Thread.pastTurnstile_cases {t : Thread} (h : 0 < t.pastTurnstile) :
    t.waitsMutex = true ∨ ReaderWriter.Thread.inMutex (erasure.thread t) = 1 := by
  cases t with
  | writer w => exact absurd h (Nat.lt_irrefl 0)
  | reader r =>
      obtain ⟨pc, i⟩ := r
      cases pc with
      | acquire p => cases p <;> simp_all [erasure, LockErasure.thread, LockErasure.reader,
          AcquireRead.erase]
      | _ => exact absurd h (Nat.lt_irrefl 0)

theorem Thread.eq_of_waitsMutex {t : Thread} (h : t.waitsMutex = true) :
    ∃ m, t = .reader ⟨.acquire .waitMutex, m⟩ := by
  cases t with
  | writer w => cases h
  | reader r =>
      obtain ⟨pc, m⟩ := r
      cases pc with
      | acquire p => cases p <;> simp_all
      | _ => cases h

theorem Thread.entersRoom_cases {t : Thread} (h : t.entersRoom = true) :
    t.waitsWritelock = true ∨ 0 < t.pastTurnstile := by
  cases t with
  | writer w =>
      obtain ⟨pc, i⟩ := w
      cases pc with
      | acquire p => cases p <;> simp_all
      | _ => cases h
  | reader r =>
      obtain ⟨pc, i⟩ := r
      cases pc with
      | acquire p => cases p <;> simp_all
      | _ => cases h

theorem Thread.entersRoom_of_waitsWritelock {t : Thread} (h : t.waitsWritelock = true) :
    t.entersRoom = true := by
  cases t with
  | reader r => cases h
  | writer w =>
      obtain ⟨pc, i⟩ := w
      cases pc with
      | acquire p => cases p <;> simp_all
      | _ => cases h

/-- `W` waits, and no reader is past the turnstile. -/
def Alone (W : Tid numReaders numWriters)
    (c : Conf (Tid numReaders numWriters) Shared Thread) : Prop :=
  Waits W c ∧ ∀ i, (c.threads i).pastTurnstile = 0

theorem Alone.step {W i : Tid numReaders numWriters}
    {c c' : Conf (Tid numReaders numWriters) Shared Thread} (hW : Alone W c)
    (h : (program numReaders numWriters loops).next i c = some c')
    (hi : movedFrom Thread.entersRoom i c = false) : Alone W c' := by
  refine ⟨hW.1.step h ?_, fun j => ?_⟩
  · rw [← Bool.not_eq_true]
    intro hmove
    obtain ⟨rfl, hwait⟩ := movedBy_eq_true.mp hmove
    rw [movedFrom, Thread.entersRoom_of_waitsWritelock hwait] at hi
    cases hi
  · have := hW.1.reader_step (R := j) h
    have := hW.2 j
    omega

theorem Alone.nextToEnter {W : Tid numReaders numWriters}
    {c : Conf (Tid numReaders numWriters) Shared Thread} (hW : Alone W c) :
    NextToEnter loops W c := by
  intro ls c' i hrun hquiet _ hi
  have hend : Alone W c' := exec_of_tally_eq_zero (I := Alone W) Alone.step hW hrun hquiet
  rcases Thread.entersRoom_cases hi with hwait | hpast
  · exact hend.1.unique hwait
  · have := hend.2 i
    omega

/-! ## The reader that stopped before `mutex` -/

/-- Leaving as the last reader: the write lock and `mutex` are free again. -/
theorem reader_leaves (loops : Nat) {s : Shared} {n : Nat} (h : s.lock.readers = 0) :
    quietSolo (thread lockCode loops) Thread.entersRoom 3
        (s, .reader ⟨.release .testReaders, n⟩)
      = some (⟨{ s.lock with mutex := s.lock.mutex + 1, writelock := s.lock.writelock + 1 },
          s.value⟩, .reader ⟨.loop, n + 1⟩) := by
  simp [quietSolo, thread, reader, lockCode, rwlockReleaseReadlock, h, semPost]

/-- Coming in as the first reader, up to the write lock. -/
theorem reader_comes (loops : Nat) {s : Shared} {m u : Nat} (hm : s.lock.mutex = u + 1)
    (h : s.lock.readers = 0) :
    quietSolo (thread lockCode loops) Thread.entersRoom 4
        (s, .reader ⟨.acquire .waitMutex, m⟩)
      = some (⟨{ s.lock with mutex := u, readers := 1 }, s.value⟩,
          .reader ⟨.acquire .waitWritelock, m⟩) := by
  simp [quietSolo, thread, reader, lockCode, rwlockAcquireReadlock, hm, h, semWait]

/-- A reader at `mutex` can be the next to enter, as soon as the last reader
has brought `readers` to 0. -/
theorem reader_overtakes {R j W : Tid numReaders numWriters} {n m : Nat}
    {c : Conf (Tid numReaders numWriters) Shared Thread}
    (hR : c.threads R = .reader ⟨.release .testReaders, n⟩)
    (hj : c.threads j = .reader ⟨.acquire .waitMutex, m⟩) (h0 : c.shared.lock.readers = 0)
    (h : NextToEnter loops W c) : j = W := by
  have hjR : j ≠ R := by
    rintro rfl
    rw [hR] at hj
    cases hj
  let P := program numReaders numWriters loops
  -- the last reader leaves
  have hleave := reader_leaves loops (n := n) h0
  rw [← hR] at hleave
  obtain ⟨hexec₁, htally₁⟩ := exec_replicate_of_quietSolo P.init hleave
  -- the reader at `mutex` comes in
  obtain ⟨c₁, hc₁⟩ : ∃ c₁, P.exec (List.replicate 3 R) c = some c₁ := ⟨_, hexec₁⟩
  have hc₁eq := Option.some.inj (hc₁.symm.trans hexec₁)
  have hj₁ : c₁.threads j = .reader ⟨.acquire .waitMutex, m⟩ := by
    rw [hc₁eq, ← hj]
    exact Function.update_of_ne hjR _ _
  have hcome := reader_comes loops (s := c₁.shared) (m := m) (u := c.shared.lock.mutex)
    (by rw [hc₁eq]) (by rw [hc₁eq]; exact h0)
  rw [← hj₁] at hcome
  obtain ⟨hexec₂, htally₂⟩ := exec_replicate_of_quietSolo P.init hcome
  refine h (List.replicate 3 R ++ List.replicate 4 j) _ j
    (exec_append_eq_some.mpr ⟨c₁, hc₁, hexec₂⟩) ?quiet ?moves ?enters
  case quiet =>
    exact (tally_append hc₁).trans (congrArg₂ (· + ·) htally₁ htally₂)
  case moves =>
    refine Conf.step_isSome ?_
    simp [thread, reader, lockCode, rwlockAcquireReadlock, hc₁eq, semWait]
  case enters => simp

/-! ## The hand-off -/

/-- While a reader is in the `mutex` section of its release, the readers past
the turnstile are those at `mutex`. -/
theorem alone_of_releasing {R W : Tid numReaders numWriters} {n : Nat} {r : Int}
    {c : Conf (Tid numReaders numWriters) Shared Thread}
    (hc : (program numReaders numWriters loops).Reachable c)
    (hR : c.threads R = .reader ⟨.release (.storeReaders r), n⟩)
    (hW : (c.threads W).waitsWritelock = true) (hfree : ∀ j, (c.threads j).waitsMutex = false) :
    Alone W c := by
  refine ⟨⟨oneHolder_inductive.reachable hc, hW⟩, fun i => ?_⟩
  by_contra hi
  rcases Thread.pastTurnstile_cases (Nat.pos_of_ne_zero hi) with hwait | hin
  · rw [hfree i] at hwait
    cases hwait
  · have hiR : i ≠ R := by
      rintro rfl
      rw [hR] at hi
      exact hi rfl
    have hinR : ReaderWriter.Thread.inMutex (erasure.thread (c.threads R)) = 1 := by
      rw [hR]
      rfl
    have hmutex := (inv_erase hc).mutex
    have := add_le_total ReaderWriter.Thread.inMutex (erasure.conf c).threads hiR
    have : ReaderWriter.Thread.inMutex ((erasure.conf c).threads i) = 1 := hin
    have : ReaderWriter.Thread.inMutex ((erasure.conf c).threads R) = 1 := hinR
    omega

/-- **The hand-off.** When a reader's release brings `readers` to 0 while the
writer `W` waits for the write lock with the turnstile in its hands, `W` is
the next to enter exactly if no reader stands between its turnstile and its
`sem_wait(&rw->mutex)`. -/
theorem nostarve_handoff (numReaders numWriters loops : Nat)
    {c₀ c₁ : Conf (Tid numReaders numWriters) Shared Thread}
    {R W : Tid numReaders numWriters} {n : Nat} {r : Int}
    (h₀ : (program numReaders numWriters loops).Reachable c₀)
    (hR : c₀.threads R = .reader ⟨.release (.storeReaders r), n⟩)
    (hW : (c₀.threads W).waitsWritelock = true)
    (h₁ : (program numReaders numWriters loops).next R c₀ = some c₁)
    (hlast : c₁.shared.lock.readers = 0) :
    NextToEnter loops W c₁ ↔ ∀ j, (c₀.threads j).waitsMutex = false := by
  constructor
  · intro hnext j
    rw [← Bool.not_eq_true]
    intro hj
    obtain ⟨m, hjm⟩ := Thread.eq_of_waitsMutex hj
    have hjR : j ≠ R := by
      rintro rfl
      rw [hR] at hj
      cases hj
    have hjW : j = W := by
      refine reader_overtakes (R := R) (n := n) (m := m) ?_ ?_ hlast hnext
      · have hmove := Conf.step_mover h₁
        simp only [hR, thread, reader, lockCode, rwlockReleaseReadlock, Option.map_some,
          Ctl.resume_goto, Option.some.injEq, Prod.mk.injEq] at hmove
        exact hmove.2.symm
      · exact (Conf.step_threads_ne h₁ hjR).trans hjm
    rw [← hjW, hjm] at hW
    cases hW
  · intro hfree
    refine ((alone_of_releasing h₀ hR hW hfree).step h₁ ?_).nextToEnter
    rw [movedFrom, hR]
    rfl

/-- One reader and one writer: nobody can come between. -/
theorem nostarve_handoff_one :
    ∃ (c₀ c₁ : Conf (Tid 1 1) Shared Thread), (program 1 1 1).next (.inl 0) c₀ = some c₁
      ∧ (c₀.threads (.inr 0)).waitsWritelock = true ∧ c₁.shared.lock.readers = 0
      ∧ NextToEnter 1 (.inr 0) c₁ := by
  obtain ⟨c₀, h₀, hc₀⟩ := Option.any_eq_true _ _ |>.mp
    (show (((program 1 1 1).exec
        (List.replicate 9 (.inl 0) ++ List.replicate 2 (.inr 0) ++ List.replicate 4 (.inl 0))
        (initial lockCode 1 1)).any fun c =>
      c.threads (.inl 0) = .reader ⟨.release (.storeReaders 1), 0⟩
        ∧ (c.threads (.inr 0)).waitsWritelock = true
        ∧ (∀ j, (c.threads j).waitsMutex = false)
        ∧ ((program 1 1 1).next (.inl 0) c).any fun c₁ =>
          c₁.shared.lock.readers = 0) = true by decide +kernel)
  obtain ⟨hR, hW, hfree, hnext⟩ := of_decide_eq_true hc₀
  obtain ⟨c₁, h₁, hc₁⟩ := Option.any_eq_true _ _ |>.mp hnext
  have hlast := of_decide_eq_true hc₁
  exact ⟨c₀, c₁, h₁, hW, hlast, (nostarve_handoff 1 1 1 ⟨_, h₀⟩ hR hW h₁ hlast).mpr hfree⟩

/-- Two readers and a writer: the second reader stops between the turnstile and
`mutex`, the writer takes the turnstile, the first reader leaves as the last
one, and the second reader enters before the writer. -/
theorem nostarve_handoff_overtaken :
    ¬ ∀ (numReaders numWriters loops : Nat)
        (c₀ c₁ : Conf (Tid numReaders numWriters) Shared Thread)
        (R W : Tid numReaders numWriters) (n : Nat) (r : Int),
      (program numReaders numWriters loops).Reachable c₀ →
      c₀.threads R = .reader ⟨.release (.storeReaders r), n⟩ →
      (c₀.threads W).waitsWritelock = true →
      (program numReaders numWriters loops).next R c₀ = some c₁ →
      c₁.shared.lock.readers = 0 → NextToEnter loops W c₁ := by
  intro hall
  obtain ⟨c₀, h₀, hc₀⟩ := Option.any_eq_true _ _ |>.mp
    (show (((program 2 1 1).exec
        (List.replicate 9 (.inl 0) ++ List.replicate 3 (.inl 1) ++ List.replicate 2 (.inr 0)
          ++ List.replicate 4 (.inl 0)) (initial lockCode 2 1)).any fun c =>
      c.threads (.inl 0) = .reader ⟨.release (.storeReaders 1), 0⟩
        ∧ (c.threads (.inr 0)).waitsWritelock = true
        ∧ ((program 2 1 1).next (.inl 0) c).any fun c₁ =>
          c₁.shared.lock.readers = 0
          ∧ (program 2 1 1).tally (movedFrom Thread.entersRoom)
              (List.replicate 3 (.inl 0) ++ List.replicate 4 (.inl 1)) c₁ = 0
          ∧ ((program 2 1 1).exec
              (List.replicate 3 (.inl 0) ++ List.replicate 4 (.inl 1)) c₁).any fun c₂ =>
            (c₂.threads (.inl 1)).entersRoom = true
            ∧ ((program 2 1 1).next (.inl 1) c₂).isSome) = true by decide +kernel)
  obtain ⟨hR, hW, hnext⟩ := of_decide_eq_true hc₀
  obtain ⟨c₁, h₁, hc₁⟩ := Option.any_eq_true _ _ |>.mp hnext
  obtain ⟨hlast, hquiet, hexec⟩ := of_decide_eq_true hc₁
  obtain ⟨c₂, h₂, hc₂⟩ := Option.any_eq_true _ _ |>.mp hexec
  obtain ⟨henters, hmoves⟩ := of_decide_eq_true hc₂
  have hfirst := hall 2 1 1 c₀ c₁ _ _ _ _ ⟨_, h₀⟩ hR hW h₁ hlast _ c₂ (.inl 1) h₂ hquiet
    (Option.isSome_iff_exists.mp hmoves) henters
  cases hfirst

end CAdvanced.ReaderWriterNostarve
