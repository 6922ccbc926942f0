import CAdvanced.ReaderWriter.Model
import CAdvanced.Interleave.Sync

/-!
# ReaderWriter — Starvation

Without a turnstile, two readers that take turns never let `readers` go back to 0, and a
writer waits for them as long as they like: for all the rounds that they have, while the lock
with the turnstile lets every reader pass once at most.
-/

namespace CAdvanced.ReaderWriter

open Interleave System ReaderWriterMain

/-- About to post the write lock. -/
def Thread.postsWritelock : Thread → Bool
  | .reader ⟨.release .postWritelock, _⟩ | .writer ⟨.release .postWritelock, _⟩ => true
  | _ => false

variable {numReaders numWriters loops : Nat}

/-! ## What one reader does -/

/-- Coming in while another reader is inside. -/
theorem reader_joins {s : Shared} {b : Nat} (hs : s.lock = ⟨1, 0, 1⟩) (hb : b < loops) :
    quietSolo (thread lockCode loops) Thread.postsWritelock 6 (s, .reader ⟨.loop, b⟩)
      = some (⟨⟨1, 0, 2⟩, s.value⟩, .reader ⟨.loadValue, b⟩) := by
  simp [quietSolo, thread, reader, lockCode, rwlockAcquireReadlock, hs, hb, semWait, semPost,
    Thread.postsWritelock]

/-- Leaving while another reader is inside. -/
theorem reader_leaves {s : Shared} {a : Nat} (hs : s.lock = ⟨1, 0, 2⟩) :
    quietSolo (thread lockCode loops) Thread.postsWritelock 7 (s, .reader ⟨.loadValue, a⟩)
      = some (⟨⟨1, 0, 1⟩, s.value⟩, .reader ⟨.loop, a + 1⟩) := by
  simp [quietSolo, thread, reader, lockCode, rwlockReleaseReadlock, hs, semWait, semPost,
    Thread.postsWritelock]

/-- Coming in as the first one. -/
theorem reader_enters {s : Shared} (hs : s.lock = rwlockInit) (hloops : 0 < loops) :
    quietSolo (thread lockCode loops) Thread.postsWritelock 7 (s, .reader ⟨.loop, 0⟩)
      = some (⟨⟨1, 0, 1⟩, s.value⟩, .reader ⟨.loadValue, 0⟩) := by
  simp [quietSolo, thread, reader, lockCode, rwlockAcquireReadlock, hs, rwlockInit, hloops,
    semWait, semPost, Thread.postsWritelock]

/-! ## The two readers -/

/-- `R` is inside in its round `a`, `S` is about to begin its round `b`, and `W` waits. -/
structure Boundary (W : Fin numWriters) (R S : Fin numReaders) (a b : Nat)
    (c : Conf (Tid numReaders numWriters) Shared Thread) : Prop where
  lock : c.shared.lock = ⟨1, 0, 1⟩
  inside : c.threads (.inl R) = .reader ⟨.loadValue, a⟩
  outside : c.threads (.inl S) = .reader ⟨.loop, b⟩
  waits : c.threads (.inr W) = .writer ⟨.acquire .waitWritelock, 0⟩

/-- A run on which nobody posts the write lock. -/
def Quiet (loops : Nat) (ls : List (Tid numReaders numWriters))
    (c c' : Conf (Tid numReaders numWriters) Shared Thread) : Prop :=
  (program numReaders numWriters loops).exec ls c = some c'
    ∧ (program numReaders numWriters loops).tally (movedFrom Thread.postsWritelock) ls c = 0

theorem Quiet.append {ls ls' : List (Tid numReaders numWriters)}
    {c c' c'' : Conf (Tid numReaders numWriters) Shared Thread} (h : Quiet loops ls c c')
    (h' : Quiet loops ls' c' c'') : Quiet loops (ls ++ ls') c c'' :=
  ⟨exec_append_eq_some.mpr ⟨c', h.1, h'.1⟩, by rw [tally_append h.1, h.2, h'.2]⟩

/-- What one thread does alone. -/
theorem quiet_of_solo {i : Tid numReaders numWriters} {n : Nat} {s : Shared} {t t' : Thread}
    {c : Conf (Tid numReaders numWriters) Shared Thread} (ht : c.threads i = t)
    (h : quietSolo (thread lockCode loops) Thread.postsWritelock n (c.shared, t) = some (s, t')) :
    ∃ c', Quiet loops (List.replicate n i) c c' ∧ c'.shared = s ∧ c'.threads i = t'
      ∧ ∀ j, j ≠ i → c'.threads j = c.threads j := by
  rw [← ht] at h
  exact ⟨_, exec_replicate_of_quietSolo (initial lockCode numReaders numWriters) h, rfl,
    Function.update_self _ _ _, fun j hj => Function.update_of_ne hj _ _⟩

variable {W : Fin numWriters} {R S : Fin numReaders} {a b : Nat}
  {c : Conf (Tid numReaders numWriters) Shared Thread}

/-- **They take turns**: `S` comes in, then `R` leaves. -/
theorem Boundary.swap (h : Boundary W R S a b c) (hRS : R ≠ S) (hb : b < loops) :
    ∃ ls c', Quiet loops ls c c' ∧ Boundary W S R b (a + 1) c' := by
  obtain ⟨c₁, hrun₁, hs₁, hS₁, hothers₁⟩ := quiet_of_solo h.outside (reader_joins h.lock hb)
  have hR₁ : c₁.threads (.inl R) = .reader ⟨.loadValue, a⟩ :=
    (hothers₁ (.inl R) (by simpa using hRS)).trans h.inside
  obtain ⟨c₂, hrun₂, hs₂, hR₂, hothers₂⟩ := quiet_of_solo hR₁ (reader_leaves (by rw [hs₁]))
  refine ⟨_, c₂, hrun₁.append hrun₂, by rw [hs₂], ?_, hR₂, ?_⟩
  · rw [hothers₂ (.inl S) (by simpa using hRS.symm), hS₁]
  · rw [hothers₂ (.inr W) (by simp), hothers₁ (.inr W) (by simp), h.waits]

/-- Both go through `k` rounds. -/
theorem Boundary.rounds (h : Boundary W R S a a c) (hRS : R ≠ S) (k : Nat)
    (hk : a + k < loops) : ∃ ls c', Quiet loops ls c c' ∧ Boundary W R S (a + k) (a + k) c' := by
  induction k with
  | zero => exact ⟨[], c, ⟨rfl, rfl⟩, h⟩
  | succ k ih =>
      have hlt : a + k < loops := Nat.lt_of_succ_lt hk
      obtain ⟨ls, c', hls, hc'⟩ := ih hlt
      obtain ⟨ls₁, c₁, hls₁, hc₁⟩ := hc'.swap hRS hlt
      obtain ⟨ls₂, c₂, hls₂, hc₂⟩ := hc₁.swap hRS.symm hk
      exact ⟨ls ++ ls₁ ++ ls₂, c₂, (hls.append hls₁).append hls₂, hc₂⟩

theorem boundary_start (W : Fin numWriters) (hRS : R ≠ S) (hloops : 0 < loops) :
    ∃ ls c, (program numReaders numWriters loops).Reaches ls c ∧ Boundary W R S 0 0 c := by
  have hwriter : ∀ s : Shared, quietSolo (thread lockCode loops) Thread.postsWritelock 1
      (s, .writer ⟨.loop, 0⟩) = some (s, .writer ⟨.acquire .waitWritelock, 0⟩) := by
    intro s
    simp [quietSolo, thread, writer, lockCode, hloops, Thread.postsWritelock]
  obtain ⟨c₁, hrun₁, hs₁, hR₁, hothers₁⟩ := quiet_of_solo
    (c := initial lockCode numReaders numWriters) (i := .inl R) rfl (reader_enters rfl hloops)
  have hW₁ : c₁.threads (.inr W) = .writer ⟨.loop, 0⟩ := hothers₁ (.inr W) (by simp)
  obtain ⟨c₂, hrun₂, hs₂, hW₂, hothers₂⟩ := quiet_of_solo hW₁ (hwriter c₁.shared)
  refine ⟨_, c₂, (hrun₁.append hrun₂).1, by rw [hs₂, hs₁], ?_, ?_, hW₂⟩
  · rw [hothers₂ (.inl R) (by simp), hR₁]
  · rw [hothers₂ (.inl S) (by simp), hothers₁ (.inl S) (by simpa using hRS.symm)]
    rfl

/-! ## The writer -/

/-- `W` waits, and cannot move. -/
def Stuck (loops : Nat) (W : Fin numWriters)
    (c : Conf (Tid numReaders numWriters) Shared Thread) : Prop :=
  c.threads (.inr W) = .writer ⟨.acquire .waitWritelock, 0⟩
    ∧ (program numReaders numWriters loops).next (.inr W) c = none

theorem stuck_iff : Stuck loops W c ↔ c.threads (.inr W) = .writer ⟨.acquire .waitWritelock, 0⟩
    ∧ c.shared.lock.writelock = 0 := by
  refine and_congr_right fun hW => ?_
  show c.step (thread lockCode loops) (.inr W) = none ↔ _
  rw [Conf.step, hW]
  cases hlock : c.shared.lock.writelock with
  | zero => simp [thread, writer, lockCode, rwlockAcquireWritelock, hlock, semWait]
  | succ n => simp [thread, writer, lockCode, rwlockAcquireWritelock, hlock, semWait]

theorem acquireRead_writelock {rw rw' : Rwlock} {p : AcquireRead} {n : Ctl AcquireRead}
    (h : rwlockAcquireReadlock rw p = some (rw', n)) (hrw : rw.writelock = 0) :
    rw'.writelock = 0 := by
  cases p with
  | waitMutex =>
      simp only [rwlockAcquireReadlock, Option.map_eq_some_iff, Prod.mk.injEq] at h
      obtain ⟨u, -, rfl, -⟩ := h
      exact hrw
  | waitWritelock =>
      rw [rwlockAcquireReadlock, hrw] at h
      cases h
  | _ => cases h; exact hrw

theorem releaseRead_writelock {rw rw' : Rwlock} {p : ReleaseRead} {n : Ctl ReleaseRead}
    (h : rwlockReleaseReadlock rw p = some (rw', n)) (hrw : rw.writelock = 0) :
    rw'.writelock = 0 ↔ p ≠ .postWritelock := by
  cases p with
  | waitMutex =>
      simp only [rwlockReleaseReadlock, Option.map_eq_some_iff, Prod.mk.injEq] at h
      obtain ⟨u, -, rfl, -⟩ := h
      simp [hrw]
  | postWritelock => cases h; simp [semPost]
  | _ => cases h; simp [hrw]

/-- Only who posts the write lock makes it free. -/
theorem writelock_eq {s s' : Shared} {t t' : Thread}
    (h : thread lockCode loops s t = some (s', t')) (hs : s.lock.writelock = 0) :
    s'.lock.writelock = 0 ↔ t.postsWritelock = false := by
  cases t with
  | reader r =>
      obtain ⟨pc, i⟩ := r
      cases pc with
      | acquire p =>
          simp only [thread, reader, lockCode, Option.map_map, Option.map_eq_some_iff] at h
          obtain ⟨x, hx, hs'⟩ := h
          cases hs'
          exact iff_of_true (acquireRead_writelock hx hs) rfl
      | release p =>
          simp only [thread, reader, lockCode, Option.map_map, Option.map_eq_some_iff] at h
          obtain ⟨x, hx, hs'⟩ := h
          cases hs'
          refine (releaseRead_writelock hx hs).trans ?_
          cases p <;> simp [Thread.postsWritelock]
      | finished => cases h
      | _ => cases h; exact iff_of_true hs rfl
  | writer w =>
      obtain ⟨pc, i⟩ := w
      cases pc with
      | acquire p =>
          simp [thread, writer, lockCode, rwlockAcquireWritelock, hs, semWait] at h
      | release p =>
          cases h
          simp [Thread.postsWritelock, semPost]
      | finished => cases h
      | _ => cases h; exact iff_of_true hs rfl

/-- **Starvation**: a writer that has come to its first `sem_wait(&rw->writelock)` while a
reader is in its first round can be held up there, without one moment in which it could go
on, until two readers between them have made every round that they have. -/
theorem reader_writer_starvation (hRS : R ≠ S) (W : Fin numWriters) (hloops : 0 < loops) :
    ∃ ls₀ c₀ ls c, (program numReaders numWriters loops).Reaches ls₀ c₀
      ∧ (program numReaders numWriters loops).exec ls c₀ = some c
      ∧ (program numReaders numWriters loops).Throughout (Stuck loops W) ls c₀
      ∧ c₀.threads (.inl R) = .reader ⟨.loadValue, 0⟩
      ∧ c₀.threads (.inl S) = .reader ⟨.loop, 0⟩
      ∧ c.threads (.inl R) = .reader ⟨.loop, loops⟩
      ∧ c.threads (.inl S) = .reader ⟨.loadValue, loops - 1⟩ := by
  obtain ⟨ls₀, c₀, hrun₀, h₀⟩ := boundary_start W hRS hloops
  have hlast : 0 + (loops - 1) < loops := by omega
  obtain ⟨ls₁, c₁, hrun₁, h₁⟩ := h₀.rounds hRS (loops - 1) hlast
  obtain ⟨ls₂, c₂, hrun₂, h₂⟩ := h₁.swap hRS hlast
  obtain ⟨hexec, hquiet⟩ := hrun₁.append hrun₂
  have hstuck : Stuck loops W c₀ := stuck_iff.mpr ⟨h₀.waits, by rw [h₀.lock]⟩
  refine ⟨ls₀, c₀, ls₁ ++ ls₂, c₂, hrun₀, hexec, ?_, h₀.inside, h₀.outside, ?_, ?_⟩
  · refine (throughout_iff (I := fun _ => True) inductive_true ?_ trivial hstuck hexec).mpr hquiet
    rintro i d d' - ⟨hW, hnone⟩ hstep
    have hmover := Conf.step_mover hstep
    have hi : .inr W ≠ i := by
      rintro rfl
      cases hnone.symm.trans hstep
    rw [stuck_iff, Conf.step_threads_ne hstep hi, movedFrom,
      writelock_eq hmover (stuck_iff.mp ⟨hW, hnone⟩).2]
    exact and_iff_right hW
  · rw [h₂.outside]
    congr 2
    omega
  · rw [h₂.inside, Nat.zero_add]

/-- Two readers with three rounds each, and one writer. -/
theorem reader_writer_starvation_three :
    ∃ ls₀ c₀ ls c, (program 2 1 3).Reaches ls₀ c₀ ∧ (program 2 1 3).exec ls c₀ = some c
      ∧ (program 2 1 3).Throughout (Stuck 3 0) ls c₀
      ∧ c₀.threads (.inl 0) = .reader ⟨.loadValue, 0⟩
      ∧ c₀.threads (.inl 1) = .reader ⟨.loop, 0⟩
      ∧ c.threads (.inl 0) = .reader ⟨.loop, 3⟩
      ∧ c.threads (.inl 1) = .reader ⟨.loadValue, 2⟩ :=
  reader_writer_starvation (by decide) 0 (by decide)

end CAdvanced.ReaderWriter
