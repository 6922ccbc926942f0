import CAdvanced.ReaderWriterNostarve.Model

/-!
# ReaderWriterNostarve — Bypass

What the turnstile is for. It has one holder at a time: a reader on its way
through, or a writer from `rwlock_acquire_writelock` until its release reopens
it. So while a writer waits for the write lock no other thread is at a point
where it could pass before it, except the readers that are past the turnstile
already, and each of those comes in once.
-/

namespace CAdvanced.ReaderWriterNostarve

open Interleave System ReaderWriterMain

/-! ## Places -/

/-- Has passed `sem_wait(&rw->turnstile)` and not yet posted it. -/
@[simp] def Thread.holdsTurnstile : Thread → Nat
  | .reader ⟨.acquire .postTurnstile, _⟩ => 1
  | .writer ⟨.acquire .waitWritelock, _⟩ | .writer ⟨.loadValue, _⟩
  | .writer ⟨.storeValue _, _⟩ | .writer ⟨.loadPrinted, _⟩ | .writer ⟨.printValue _, _⟩
  | .writer ⟨.release .postTurnstile, _⟩ => 1
  | _ => 0

/-- A writer at `sem_wait(&rw->writelock)` in `rwlock_acquire_writelock`. -/
@[simp] def Thread.waitsWritelock : Thread → Bool
  | .writer ⟨.acquire .waitWritelock, _⟩ => true
  | _ => false

/-- A reader at the last step of `rwlock_acquire_readlock`. -/
@[simp] def Thread.completesRead : Thread → Bool
  | .reader ⟨.acquire .postMutex, _⟩ => true
  | _ => false

/-- A reader past the turnstile, still inside `rwlock_acquire_readlock`. -/
@[simp] def Thread.pastTurnstile : Thread → Nat
  | .reader ⟨.acquire .waitTurnstile, _⟩ | .reader ⟨.acquire .postTurnstile, _⟩ => 0
  | .reader ⟨.acquire _, _⟩ => 1
  | _ => 0

/-- A reader about to post the turnstile. -/
@[simp] def Thread.leavesTurnstile : Thread → Bool
  | .reader ⟨.acquire .postTurnstile, _⟩ => true
  | _ => false

theorem Thread.holdsTurnstile_of_waitsWritelock {t : Thread} (h : t.waitsWritelock = true) :
    t.holdsTurnstile = 1 := by
  cases t with
  | reader r => cases h
  | writer w =>
      obtain ⟨pc, i⟩ := w
      cases pc with
      | acquire p => cases p <;> simp_all
      | _ => simp at h

theorem Thread.holdsTurnstile_of_leavesTurnstile {t : Thread}
    (h : t.leavesTurnstile = true) : t.holdsTurnstile = 1 := by
  cases t with
  | writer w => cases h
  | reader r =>
      obtain ⟨pc, i⟩ := r
      cases pc with
      | acquire p => cases p <;> simp_all
      | _ => simp at h

theorem Thread.pastTurnstile_le (t : Thread) : t.pastTurnstile ≤ 1 := by
  cases t with
  | writer w => exact Nat.zero_le 1
  | reader r =>
      obtain ⟨pc, i⟩ := r
      cases pc with
      | acquire p => cases p <;> simp
      | _ => exact Nat.zero_le 1

/-- One step of a thread, as far as the turnstile is concerned. -/
structure TurnstileSpec (s s' : Shared) (a b : Thread) : Prop where
  turnstile : s'.lock.turnstile + b.holdsTurnstile = s.lock.turnstile + a.holdsTurnstile
  /-- A reader comes to be past the turnstile by posting it, and is so until it
  completes its acquire. -/
  past : b.pastTurnstile + a.completesRead.toNat = a.pastTurnstile + a.leavesTurnstile.toNat

theorem reader_turnstile {loops : Nat} {s s' : Shared} {a b : Reader}
    (h : reader lockCode loops s a = some (s', b)) :
    TurnstileSpec s s' (.reader a) (.reader b) := by
  obtain ⟨pc, i⟩ := a
  cases pc with
  | loop =>
      simp only [reader, lockCode, Option.some.injEq, Prod.mk.injEq] at h
      obtain ⟨rfl, rfl⟩ := h
      split <;> constructor <;> simp
  | acquire p =>
      simp only [reader, lockCode, Option.map_eq_some_iff, Prod.mk.injEq, Prod.exists] at h
      obtain ⟨rw', k, hk, rfl, rfl⟩ := h
      cases p with
      | waitTurnstile | waitMutex | waitWritelock =>
          simp only [rwlockAcquireReadlock, Option.map_eq_some_iff, semWait_eq_some,
            Prod.mk.injEq] at hk
          obtain ⟨u, hu, rfl, rfl⟩ := hk
          constructor <;> simp [hu]
      | testReaders =>
          simp only [rwlockAcquireReadlock, Option.some.injEq, Prod.mk.injEq] at hk
          obtain ⟨rfl, rfl⟩ := hk
          split <;> constructor <;> simp
      | postTurnstile | loadReaders | storeReaders r | postMutex =>
          simp only [rwlockAcquireReadlock, Option.some.injEq, Prod.mk.injEq] at hk
          obtain ⟨rfl, rfl⟩ := hk
          constructor <;> simp [semPost]
  | loadValue | printValue v =>
      simp only [reader, lockCode, Option.some.injEq, Prod.mk.injEq] at h
      obtain ⟨rfl, rfl⟩ := h
      constructor <;> simp
  | release p =>
      simp only [reader, lockCode, Option.map_eq_some_iff, Prod.mk.injEq, Prod.exists] at h
      obtain ⟨rw', k, hk, rfl, rfl⟩ := h
      have hsame : rw'.turnstile = s.lock.turnstile := by
        cases p with
        | waitMutex =>
            simp only [rwlockReleaseReadlock, Option.map_eq_some_iff, Prod.mk.injEq] at hk
            obtain ⟨u, -, rfl, -⟩ := hk
            rfl
        | _ =>
            simp only [rwlockReleaseReadlock, Option.some.injEq, Prod.mk.injEq] at hk
            obtain ⟨rfl, -⟩ := hk
            rfl
      cases k <;> constructor <;> simp [hsame]
  | finished => cases h

theorem writer_turnstile {loops : Nat} {s s' : Shared} {a b : Writer}
    (h : writer lockCode loops s a = some (s', b)) :
    TurnstileSpec s s' (.writer a) (.writer b) := by
  obtain ⟨pc, i⟩ := a
  cases pc with
  | loop =>
      simp only [writer, lockCode, Option.some.injEq, Prod.mk.injEq] at h
      obtain ⟨rfl, rfl⟩ := h
      split <;> constructor <;> simp
  | acquire p =>
      simp only [writer, lockCode, Option.map_eq_some_iff, Prod.mk.injEq, Prod.exists] at h
      obtain ⟨rw', k, hk, rfl, rfl⟩ := h
      cases p with
      | waitTurnstile | waitWritelock =>
          simp only [rwlockAcquireWritelock, Option.map_eq_some_iff, semWait_eq_some,
            Prod.mk.injEq] at hk
          obtain ⟨u, hu, rfl, rfl⟩ := hk
          constructor <;> simp [hu]
  | loadValue | storeValue r | loadPrinted | printValue v =>
      simp only [writer, lockCode, Option.some.injEq, Prod.mk.injEq] at h
      obtain ⟨rfl, rfl⟩ := h
      constructor <;> simp
  | release p =>
      simp only [writer, lockCode, Option.map_eq_some_iff, Prod.mk.injEq, Prod.exists] at h
      obtain ⟨rw', k, hk, rfl, rfl⟩ := h
      cases p with
      | postTurnstile | postWritelock =>
          simp only [rwlockReleaseWritelock, Option.some.injEq, Prod.mk.injEq] at hk
          obtain ⟨rfl, rfl⟩ := hk
          constructor <;> simp [semPost]
  | finished => cases h

theorem thread_turnstile {loops : Nat} {s s' : Shared} {a b : Thread}
    (h : thread lockCode loops s a = some (s', b)) : TurnstileSpec s s' a b := by
  cases a with
  | reader r =>
      simp only [thread, Option.map_eq_some_iff, Prod.mk.injEq, Prod.exists] at h
      obtain ⟨s', b, hb, rfl, rfl⟩ := h
      exact reader_turnstile hb
  | writer w =>
      simp only [thread, Option.map_eq_some_iff, Prod.mk.injEq, Prod.exists] at h
      obtain ⟨s', b, hb, rfl, rfl⟩ := h
      exact writer_turnstile hb

/-! ## One holder -/

variable {numReaders numWriters loops : Nat}

/-- The turnstile and the threads hold one token together. -/
def OneHolder (c : Conf (Tid numReaders numWriters) Shared Thread) : Prop :=
  c.shared.lock.turnstile + total Thread.holdsTurnstile c.threads = 1

theorem oneHolder_inductive :
    (program numReaders numWriters loops).Inductive OneHolder where
  init := by simp [OneHolder, main, threads, initial, lockCode, rwlockInit, total]
  step := by
    intro i c c' hc h
    have hkeep := Conf.step_total (g := fun s => s.lock.turnstile) h
      (thread_turnstile (Conf.step_mover h)).turnstile
    exact hkeep.trans hc

theorem OneHolder.unique {c : Conf (Tid numReaders numWriters) Shared Thread}
    (hc : OneHolder c) {i j : Tid numReaders numWriters}
    (hi : (c.threads i).holdsTurnstile = 1) (hj : (c.threads j).holdsTurnstile = 1) :
    i = j := by
  by_contra hij
  have := add_le_total Thread.holdsTurnstile c.threads hij
  unfold OneHolder at hc
  omega

/-! ## The waiting writer -/

/-- `W` has passed the turnstile and not yet the write lock. -/
def Waits (W : Tid numReaders numWriters)
    (c : Conf (Tid numReaders numWriters) Shared Thread) : Prop :=
  OneHolder c ∧ (c.threads W).waitsWritelock = true

/-- While `W` waits it is the only writer at the write lock. -/
theorem Waits.unique {W V : Tid numReaders numWriters}
    {c : Conf (Tid numReaders numWriters) Shared Thread} (hW : Waits W c)
    (hV : (c.threads V).waitsWritelock = true) : V = W :=
  hW.1.unique (Thread.holdsTurnstile_of_waitsWritelock hV)
    (Thread.holdsTurnstile_of_waitsWritelock hW.2)

/-- While `W` waits no reader is about to post the turnstile. -/
theorem Waits.not_leavesTurnstile {W i : Tid numReaders numWriters}
    {c : Conf (Tid numReaders numWriters) Shared Thread} (hW : Waits W c) :
    (c.threads i).leavesTurnstile = false := by
  rw [← Bool.not_eq_true]
  intro hi
  have hiW : i = W := hW.1.unique (Thread.holdsTurnstile_of_leavesTurnstile hi)
    (Thread.holdsTurnstile_of_waitsWritelock hW.2)
  subst hiW
  have hwait := hW.2
  cases ht : c.threads i with
  | reader r => rw [ht] at hwait; cases hwait
  | writer w => rw [ht] at hi; cases hi

/-- `W` waits until it passes the write lock itself. -/
theorem Waits.step {W i : Tid numReaders numWriters}
    {c c' : Conf (Tid numReaders numWriters) Shared Thread} (hW : Waits W c)
    (h : (program numReaders numWriters loops).next i c = some c')
    (hstop : movedBy W Thread.waitsWritelock i c = false) : Waits W c' := by
  refine ⟨oneHolder_inductive.step hW.1 h, ?_⟩
  have hiW : W ≠ i := by
    rintro rfl
    rw [movedBy_eq_true.mpr ⟨rfl, hW.2⟩] at hstop
    cases hstop
  rw [Conf.step_threads_ne h hiW]
  exact hW.2

/-- While `W` waits, a reader completes its acquire only if it was past the
turnstile, and is not past it afterwards. -/
theorem Waits.reader_step {W R i : Tid numReaders numWriters}
    {c c' : Conf (Tid numReaders numWriters) Shared Thread} (hW : Waits W c)
    (h : (program numReaders numWriters loops).next i c = some c') :
    (c'.threads R).pastTurnstile + (movedBy R Thread.completesRead i c).toNat
      ≤ (c.threads R).pastTurnstile := by
  by_cases hi : i = R
  · subst hi
    have hpast := (thread_turnstile (Conf.step_mover h)).past
    rw [hW.not_leavesTurnstile, Bool.toNat_false, Nat.add_zero] at hpast
    rw [movedBy_self]
    exact Nat.le_of_eq hpast
  · rw [movedBy_of_ne hi, Conf.step_threads_ne h (Ne.symm hi)]
    exact Nat.le_refl _

/-- **Bounded writer bypass**: from the step with which a writer `W` passes
`sem_wait(&rw->turnstile)`, along every run in which it has not yet passed
`sem_wait(&rw->writelock)`, no other writer passes the write lock, and every
reader completes `rwlock_acquire_readlock` at most once. -/
theorem nostarve_writer_bypass (numReaders numWriters loops : Nat)
    {c₀ c₁ c₂ : Conf (Tid numReaders numWriters) Shared Thread}
    {W : Tid numReaders numWriters} {n : Nat} {ls : List (Tid numReaders numWriters)}
    (h₀ : (program numReaders numWriters loops).Reachable c₀)
    (hW : c₀.threads W = .writer ⟨.acquire .waitTurnstile, n⟩)
    (h₁ : (program numReaders numWriters loops).next W c₀ = some c₁)
    (hrun : (program numReaders numWriters loops).exec ls c₁ = some c₂)
    (hwait : (program numReaders numWriters loops).tally
      (movedBy W Thread.waitsWritelock) ls c₁ = 0) :
    (∀ V, V ≠ W → (program numReaders numWriters loops).tally
      (movedBy V Thread.waitsWritelock) ls c₁ = 0)
    ∧ (∀ R, (program numReaders numWriters loops).tally
      (movedBy R Thread.completesRead) ls c₁ ≤ 1) := by
  have hstart : Waits W c₁ := by
    refine ⟨oneHolder_inductive.reachable (h₀.next h₁), ?_⟩
    have hmove := Conf.step_mover h₁
    simp only [hW, thread, writer, lockCode, rwlockAcquireWritelock, Option.map_map,
      Option.map_eq_some_iff, Prod.mk.injEq, Function.comp_apply] at hmove
    obtain ⟨u, -, -, hthread⟩ := hmove
    rw [← hthread]
    rfl
  constructor
  · intro V hV
    refine Nat.le_zero.mp (tally_le_of_budget (I := Waits W) (b := fun _ => 0) ?_
      hstart hrun hwait)
    intro i c c' hc hstep hstop
    refine ⟨hc.step hstep hstop, ?_⟩
    cases hp : movedBy V Thread.waitsWritelock i c with
    | false => exact Nat.le_refl 0
    | true => exact absurd (hc.unique (movedBy_eq_true.mp hp).2) hV
  · intro R
    refine Nat.le_trans (tally_le_of_budget (I := Waits W)
      (b := fun c => (c.threads R).pastTurnstile) ?_ hstart hrun hwait)
      (c₁.threads R).pastTurnstile_le
    intro i c c' hc hstep hstop
    exact ⟨hc.step hstep hstop, hc.reader_step hstep⟩

/-- The bound is met: a reader past the turnstile comes in before the writer. -/
theorem nostarve_writer_bypass_tight :
    ∃ (ls : List (Tid 1 2)) (c₁ c₂ : Conf (Tid 1 2) Shared Thread),
      (program 1 2 1).exec ls c₁ = some c₂
      ∧ (program 1 2 1).tally (movedBy (.inr 0) Thread.waitsWritelock) ls c₁ = 0
      ∧ (program 1 2 1).tally (movedBy (.inl 0) Thread.completesRead) ls c₁ = 1
      ∧ (program 1 2 1).tally (movedBy (.inr 1) Thread.waitsWritelock) ls c₁ = 0
      ∧ (program 1 2 1).tally (movedBy (.inl 0) Thread.completesRead) ls c₁ ≤ 1 := by
  let ls : List (Tid 1 2) := .inr 1 :: List.replicate 8 (.inl 0)
  obtain ⟨c₀, h₀, hc₀⟩ := Option.any_eq_true _ _ |>.mp
    (show (((program 1 2 1).exec (List.replicate 3 (.inl 0) ++ [.inr 0])
        (initial lockCode 1 2)).any fun c =>
      c.threads (.inr 0) = .writer ⟨.acquire .waitTurnstile, 0⟩
        ∧ ((program 1 2 1).next (.inr 0) c).any fun c₁ =>
          (program 1 2 1).tally (movedBy (.inr 0) Thread.waitsWritelock) ls c₁ = 0
          ∧ (program 1 2 1).tally (movedBy (.inl 0) Thread.completesRead) ls c₁ = 1
          ∧ ((program 1 2 1).exec ls c₁).isSome) = true by decide +kernel)
  obtain ⟨hpc, hnext⟩ := of_decide_eq_true hc₀
  obtain ⟨c₁, h₁, hc₁⟩ := Option.any_eq_true _ _ |>.mp hnext
  obtain ⟨hwait, hone, hrun⟩ := of_decide_eq_true hc₁
  obtain ⟨c₂, h₂⟩ := Option.isSome_iff_exists.mp hrun
  obtain ⟨hwriters, hreaders⟩ := nostarve_writer_bypass 1 2 1 ⟨_, h₀⟩ hpc h₁ h₂ hwait
  exact ⟨ls, c₁, c₂, h₂, hwait, hone, hwriters (.inr 1) (by decide), hreaders (.inl 0)⟩

end CAdvanced.ReaderWriterNostarve
