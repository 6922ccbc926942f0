import CAdvanced.ReaderWriter.Model

/-!
# ReaderWriter — Invariant

`readers` is protected by `mutex` and counts exactly the threads between its
increment and its decrement. The write lock is harder: the first reader takes
it and a possibly different last reader gives it back, so while readers are
inside no thread owns it. What is invariant is the ROOM: the write lock, the
writers inside and the readers AS A GROUP hold one unit together, where the
group's share is `occupied` (some reader is counted) except inside a `mutex`
section, where the thread in the section knows better (`own`).
-/

namespace CAdvanced.ReaderWriter

open Interleave System ReaderWriterMain

/-- The readers' share of the room, seen from outside the `mutex` sections. -/
def Rwlock.occupied (rw : Rwlock) : Nat := if 0 < rw.readers then 1 else 0

/-! ## `rwlock_acquire_readlock` -/

/-- Inside the `mutex` section. -/
@[simp] def AcquireRead.inMutex : AcquireRead → Nat
  | .waitMutex => 0
  | _ => 1

/-- Counted by `readers`. -/
@[simp] def AcquireRead.counted : AcquireRead → Nat
  | .testReaders | .waitWritelock | .postMutex => 1
  | _ => 0

/-- The readers' share of the room, as the thread at this point knows it. -/
@[simp] def AcquireRead.own (rw : Rwlock) : AcquireRead → Nat
  | .testReaders => if 1 < rw.readers then 1 else 0
  | .waitWritelock => 0
  | _ => rw.occupied

@[simp] def AcquireRead.RegOk (rw : Rwlock) : AcquireRead → Prop
  | .storeReaders r => r = rw.readers
  | .waitWritelock => rw.readers = 1
  | _ => True

/-- One step of `rwlock_acquire_readlock` from `p` in `rw` to `n` in `rw'`. -/
structure AcquireReadSpec (rw rw' : Rwlock) (p : AcquireRead) (n : Ctl AcquireRead) :
    Prop where
  mutex : rw'.mutex + n.resume AcquireRead.inMutex 0 = rw.mutex + p.inMutex
  count : p.RegOk rw → rw'.readers + p.counted = rw.readers + n.resume AcquireRead.counted 1
  room : p.RegOk rw → 0 ≤ rw.readers → p.counted ≤ rw.readers →
    rw'.writelock + n.resume (AcquireRead.own rw') rw'.occupied = rw.writelock + p.own rw
  frame : p.inMutex = 0 → rw'.readers = rw.readers
  reg : n.resume (AcquireRead.RegOk rw') True

theorem rwlockAcquireReadlock_spec {rw rw' : Rwlock} {p : AcquireRead}
    {n : Ctl AcquireRead} (h : rwlockAcquireReadlock rw p = some (rw', n)) :
    AcquireReadSpec rw rw' p n := by
  cases p with
  | waitMutex | waitWritelock =>
      simp only [rwlockAcquireReadlock, Option.map_eq_some_iff, semWait_eq_some,
        Prod.mk.injEq] at h
      obtain ⟨s, hs, rfl, rfl⟩ := h
      constructor <;> simp [hs, Rwlock.occupied]
      all_goals omega
  | testReaders =>
      simp only [rwlockAcquireReadlock, Option.some.injEq, Prod.mk.injEq] at h
      obtain ⟨rfl, rfl⟩ := h
      by_cases h1 : rw.readers = 1
      · constructor <;> simp [h1]
      · constructor <;> simp [h1, Rwlock.occupied]
        intro h0 h2
        rw [if_pos (by omega), if_pos (by omega)]
  | storeReaders r =>
      simp only [rwlockAcquireReadlock, Option.some.injEq, Prod.mk.injEq] at h
      obtain ⟨rfl, rfl⟩ := h
      constructor <;> simp [Rwlock.occupied]
      intro hr _
      rw [hr]
  | loadReaders | postMutex =>
      simp only [rwlockAcquireReadlock, Option.some.injEq, Prod.mk.injEq] at h
      obtain ⟨rfl, rfl⟩ := h
      constructor <;> simp [semPost, Rwlock.occupied]

/-! ## `rwlock_release_readlock` -/

/-- Inside the `mutex` section. -/
@[simp] def ReleaseRead.inMutex : ReleaseRead → Nat
  | .waitMutex => 0
  | _ => 1

/-- Counted by `readers`. -/
@[simp] def ReleaseRead.counted : ReleaseRead → Nat
  | .waitMutex | .loadReaders | .storeReaders _ => 1
  | _ => 0

/-- The readers' share of the room, as the thread at this point knows it. -/
@[simp] def ReleaseRead.own (rw : Rwlock) : ReleaseRead → Nat
  | .testReaders | .postWritelock => 1
  | _ => rw.occupied

@[simp] def ReleaseRead.RegOk (rw : Rwlock) : ReleaseRead → Prop
  | .storeReaders r => r = rw.readers
  | .postWritelock => rw.readers = 0
  | _ => True

/-- One step of `rwlock_release_readlock` from `p` in `rw` to `n` in `rw'`. -/
structure ReleaseReadSpec (rw rw' : Rwlock) (p : ReleaseRead) (n : Ctl ReleaseRead) :
    Prop where
  mutex : rw'.mutex + n.resume ReleaseRead.inMutex 0 = rw.mutex + p.inMutex
  count : p.RegOk rw → rw'.readers + p.counted = rw.readers + n.resume ReleaseRead.counted 0
  room : p.RegOk rw → 0 ≤ rw.readers → p.counted ≤ rw.readers →
    rw'.writelock + n.resume (ReleaseRead.own rw') rw'.occupied = rw.writelock + p.own rw
  frame : p.inMutex = 0 → rw'.readers = rw.readers
  reg : n.resume (ReleaseRead.RegOk rw') True

theorem rwlockReleaseReadlock_spec {rw rw' : Rwlock} {p : ReleaseRead}
    {n : Ctl ReleaseRead} (h : rwlockReleaseReadlock rw p = some (rw', n)) :
    ReleaseReadSpec rw rw' p n := by
  cases p with
  | waitMutex =>
      simp only [rwlockReleaseReadlock, Option.map_eq_some_iff, semWait_eq_some,
        Prod.mk.injEq] at h
      obtain ⟨s, hs, rfl, rfl⟩ := h
      constructor <;> simp [hs, Rwlock.occupied]
  | testReaders =>
      simp only [rwlockReleaseReadlock, Option.some.injEq, Prod.mk.injEq] at h
      obtain ⟨rfl, rfl⟩ := h
      by_cases h0 : rw.readers = 0
      · constructor <;> simp [h0]
      · constructor <;> simp [h0, Rwlock.occupied]
        omega
  | storeReaders r =>
      simp only [rwlockReleaseReadlock, Option.some.injEq, Prod.mk.injEq] at h
      obtain ⟨rfl, rfl⟩ := h
      constructor <;> simp [Rwlock.occupied]
      omega
  | postWritelock =>
      simp only [rwlockReleaseReadlock, Option.some.injEq, Prod.mk.injEq] at h
      obtain ⟨rfl, rfl⟩ := h
      constructor <;> simp [semPost, Rwlock.occupied]
      omega
  | loadReaders | postMutex =>
      simp only [rwlockReleaseReadlock, Option.some.injEq, Prod.mk.injEq] at h
      obtain ⟨rfl, rfl⟩ := h
      constructor <;> simp [semPost, Rwlock.occupied]

/-! ## Threads -/

/-- Inside a `mutex` section. -/
@[simp] def Thread.inMutex : Thread → Nat
  | .reader ⟨.acquire p, _⟩ => p.inMutex
  | .reader ⟨.release p, _⟩ => p.inMutex
  | _ => 0

/-- Counted by `readers`. -/
@[simp] def Thread.counted : Thread → Nat
  | .reader ⟨.acquire p, _⟩ => p.counted
  | .reader ⟨.loadValue, _⟩ | .reader ⟨.printValue _, _⟩ => 1
  | .reader ⟨.release p, _⟩ => p.counted
  | _ => 0

/-- The readers' share of the room, as this thread knows it. -/
@[simp] def Thread.own (rw : Rwlock) : Thread → Nat
  | .reader ⟨.acquire p, _⟩ => p.own rw
  | .reader ⟨.release p, _⟩ => p.own rw
  | _ => rw.occupied

/-- A reader that has completed `rwlock_acquire_readlock` and not begun
`rwlock_release_readlock`. -/
@[simp] def Thread.readerInside : Thread → Nat
  | .reader ⟨.loadValue, _⟩ | .reader ⟨.printValue _, _⟩
  | .reader ⟨.release .waitMutex, _⟩ => 1
  | _ => 0

/-- A writer between its acquire and its release of the write lock. -/
@[simp] def Thread.writerInside : Thread → Nat
  | .writer ⟨.loadValue, _⟩ | .writer ⟨.storeValue _, _⟩ | .writer ⟨.loadPrinted, _⟩
  | .writer ⟨.printValue _, _⟩ | .writer ⟨.release _, _⟩ => 1
  | _ => 0

/-- Loaded values are current, and a writer in its loop body has a round to do. -/
@[simp] def Thread.RegOk (loops : Nat) (s : Shared) : Thread → Prop
  | .reader ⟨.acquire p, _⟩ => p.RegOk s.lock
  | .reader ⟨.printValue v, _⟩ => v = s.value
  | .reader ⟨.release p, _⟩ => p.RegOk s.lock
  | .writer ⟨.acquire _, i⟩ | .writer ⟨.loadValue, i⟩ => i < loops
  | .writer ⟨.storeValue r, i⟩ => i < loops ∧ r = s.value
  | .writer ⟨.printValue v, _⟩ => v = s.value
  | _ => True

/-- One step of a thread. -/
structure ThreadSpec (loops : Nat) (s s' : Shared) (a b : Thread) : Prop where
  mutex : s'.lock.mutex + b.inMutex = s.lock.mutex + a.inMutex
  count : a.RegOk loops s → s'.lock.readers + a.counted = s.lock.readers + b.counted
  room : a.RegOk loops s → 0 ≤ s.lock.readers → a.counted ≤ s.lock.readers →
    s'.lock.writelock + b.writerInside + b.own s'.lock
      = s.lock.writelock + a.writerInside + a.own s.lock
  value : a.RegOk loops s →
    s'.value = if a.storesValue then CInt.signed 32 (s.value + 1) else s.value
  toWrite : a.RegOk loops s → b.toWrite loops + a.storesValue.toNat = a.toWrite loops
  frame : a.inMutex = 0 → s'.lock.readers = s.lock.readers
  frameValue : a.writerInside = 0 → s'.value = s.value
  reg : a.RegOk loops s → b.RegOk loops s'

theorem reader_spec {loops : Nat} {s s' : Shared} {a b : Reader}
    (h : reader lockCode loops s a = some (s', b)) :
    ThreadSpec loops s s' (.reader a) (.reader b) := by
  obtain ⟨pc, i⟩ := a
  cases pc with
  | loop =>
      simp only [reader, lockCode, Option.some.injEq, Prod.mk.injEq] at h
      obtain ⟨rfl, rfl⟩ := h
      split <;> constructor <;> simp
  | acquire p =>
      simp only [reader, lockCode, Option.map_eq_some_iff, Prod.mk.injEq, Prod.exists] at h
      obtain ⟨rw', k, hk, rfl, rfl⟩ := h
      obtain ⟨hm, hc, hr, hf, hreg⟩ := rwlockAcquireReadlock_spec hk
      cases k <;> constructor <;> simp_all
  | loadValue | printValue v =>
      simp only [reader, lockCode, Option.some.injEq, Prod.mk.injEq] at h
      obtain ⟨rfl, rfl⟩ := h
      constructor <;> simp
  | release p =>
      simp only [reader, lockCode, Option.map_eq_some_iff, Prod.mk.injEq, Prod.exists] at h
      obtain ⟨rw', k, hk, rfl, rfl⟩ := h
      obtain ⟨hm, hc, hr, hf, hreg⟩ := rwlockReleaseReadlock_spec hk
      cases k <;> constructor <;> simp_all
  | finished => cases h

theorem writer_spec {loops : Nat} {s s' : Shared} {a b : Writer}
    (h : writer lockCode loops s a = some (s', b)) :
    ThreadSpec loops s s' (.writer a) (.writer b) := by
  obtain ⟨pc, i⟩ := a
  cases pc with
  | loop =>
      simp only [writer, lockCode, Option.some.injEq, Prod.mk.injEq] at h
      obtain ⟨rfl, rfl⟩ := h
      split <;> constructor <;> simp_all
  | acquire p =>
      obtain ⟨⟩ := p
      simp only [writer, lockCode, rwlockAcquireWritelock, Option.map_map, Option.map_eq_some_iff,
        semWait_eq_some, Prod.mk.injEq, Function.comp_apply] at h
      obtain ⟨u, hu, rfl, rfl⟩ := h
      constructor <;> simp [hu, Rwlock.occupied]
  | storeValue r =>
      simp only [writer, Option.some.injEq, Prod.mk.injEq] at h
      obtain ⟨rfl, rfl⟩ := h
      constructor <;> simp_all
      omega
  | loadValue | printValue v | loadPrinted =>
      simp only [writer, lockCode, Option.some.injEq, Prod.mk.injEq] at h
      obtain ⟨rfl, rfl⟩ := h
      constructor <;> simp
  | release p =>
      obtain ⟨⟩ := p
      simp only [writer, lockCode, rwlockReleaseWritelock, Option.map_some, Option.some.injEq,
        Prod.mk.injEq] at h
      obtain ⟨rfl, rfl⟩ := h
      constructor <;> simp [semPost, Rwlock.occupied]
  | finished => cases h

theorem thread_spec {loops : Nat} {s s' : Shared} {a b : Thread}
    (h : thread lockCode loops s a = some (s', b)) : ThreadSpec loops s s' a b := by
  cases a with
  | reader r =>
      simp only [thread, Option.map_eq_some_iff, Prod.mk.injEq, Prod.exists] at h
      obtain ⟨s', b, hb, rfl, rfl⟩ := h
      exact reader_spec hb
  | writer w =>
      simp only [thread, Option.map_eq_some_iff, Prod.mk.injEq, Prod.exists] at h
      obtain ⟨s', b, hb, rfl, rfl⟩ := h
      exact writer_spec hb

/-! ## The invariant -/

/-- A register survives the steps of threads outside the thread's `mutex`
section, as long as `value` does not change under a thread that prints or
stores it. -/
theorem Thread.RegOk.frame {loops : Nat} {s s' : Shared} {t : Thread}
    (h : t.RegOk loops s) (hr : t.inMutex = 1 → s'.lock.readers = s.lock.readers)
    (hv : 0 < t.readerInside + t.writerInside → s'.value = s.value) :
    t.RegOk loops s' := by
  cases t with
  | reader r =>
      obtain ⟨pc, i⟩ := r
      cases pc with
      | acquire p => cases p <;> simp_all
      | release p => cases p <;> simp_all
      | _ => simp_all
  | writer w =>
      obtain ⟨pc, i⟩ := w
      cases pc <;> simp_all

/-- How the places of a thread sit inside each other. -/
structure Thread.Places (t : Thread) : Prop where
  inMutex_le : t.inMutex ≤ 1
  own_congr : ∀ {rw rw' : Rwlock}, rw'.readers = rw.readers → t.own rw' = t.own rw
  own_outside : t.inMutex = 0 → ∀ rw, t.own rw = rw.occupied
  /-- Outside the `mutex` sections exactly the readers inside are counted. -/
  counted_outside : t.inMutex = 0 → t.counted = t.readerInside
  readerInside : 0 < t.readerInside → t.counted = 1 ∧ t.inMutex = 0 ∧ t.writerInside = 0

theorem Thread.places (t : Thread) : t.Places := by
  cases t with
  | reader r =>
      obtain ⟨pc, i⟩ := r
      cases pc with
      | acquire p => cases p <;> constructor <;> simp_all [Rwlock.occupied]
      | release p => cases p <;> constructor <;> simp_all [Rwlock.occupied]
      | _ => constructor <;> simp_all [Rwlock.occupied]
  | writer w => constructor <;> simp_all [Rwlock.occupied]

/-- A thread inside a `mutex` section that is counted together with somebody
else knows that the room is taken. -/
theorem Thread.own_pos {loops : Nat} {s : Shared} {t : Thread} (h : t.inMutex = 1)
    (hreg : t.RegOk loops s) (hc : t.counted < s.lock.readers) : t.own s.lock = 1 := by
  cases t with
  | reader r =>
      obtain ⟨pc, i⟩ := r
      cases pc with
      | acquire p => cases p <;> simp_all [Rwlock.occupied]; omega
      | release p =>
          cases p <;> simp_all [Rwlock.occupied]
          all_goals omega
      | _ => simp at h
  | writer w => simp at h

variable {numReaders numWriters loops : Nat}

/-- The invariant of the program. -/
structure Inv (loops : Nat) (c : Conf (Tid numReaders numWriters) Shared Thread) :
    Prop where
  mutex : c.shared.lock.mutex + total Thread.inMutex c.threads = 1
  count : c.shared.lock.readers = total Thread.counted c.threads
  /-- The room, as a thread in a `mutex` section sees it. -/
  inside : ∀ i, (c.threads i).inMutex = 1 →
    c.shared.lock.writelock + total Thread.writerInside c.threads
      + (c.threads i).own c.shared.lock = 1
  /-- The room while nobody is in a `mutex` section. -/
  outside : c.shared.lock.mutex = 1 →
    c.shared.lock.writelock + total Thread.writerInside c.threads
      + c.shared.lock.occupied = 1
  /-- No increment is lost, but `value` is an `int`. -/
  value : c.shared.value = CInt.signed 32
    ((numWriters * loops : Nat) - total (ReaderWriterMain.Thread.toWrite loops) c.threads)
  regs : ∀ i, (c.threads i).RegOk loops c.shared

theorem inv_init : Inv loops (initial lockCode numReaders numWriters) where
  mutex := by simp [initial, lockCode, rwlockInit, total]
  count := by simp [initial, lockCode, rwlockInit, total]
  inside := by
    rintro (i | i) hi <;> simp [initial] at hi
  outside := by simp [initial, lockCode, rwlockInit, total, Rwlock.occupied]
  value := by simp [initial, total]
  regs := by
    rintro (i | i) <;> simp [initial]

/-- Either the `mutex` is free, or exactly one thread is in a section. -/
theorem Inv.mutex_cases {c : Conf (Tid numReaders numWriters) Shared Thread}
    (hI : Inv loops c) : c.shared.lock.mutex = 1 ∨ ∃ i, (c.threads i).inMutex = 1 := by
  by_cases h : 0 < total Thread.inMutex c.threads
  · obtain ⟨i, hi⟩ := exists_of_total_pos h
    have := (c.threads i).places.inMutex_le
    exact .inr ⟨i, by omega⟩
  · have := hI.mutex
    exact .inl (by omega)

theorem Inv.writers_le {c : Conf (Tid numReaders numWriters) Shared Thread}
    (hI : Inv loops c) : total Thread.writerInside c.threads ≤ 1 := by
  rcases hI.mutex_cases with h | ⟨i, hi⟩
  · have := hI.outside h
    omega
  · have := hI.inside i hi
    omega

/-- **Exclusion**: while a reader is inside, the room holds no writer, and
the write lock is not free. -/
theorem Inv.readers_exclude {c : Conf (Tid numReaders numWriters) Shared Thread}
    (hI : Inv loops c) {j : Tid numReaders numWriters}
    (hj : 0 < (c.threads j).readerInside) :
    c.shared.lock.writelock = 0 ∧ total Thread.writerInside c.threads = 0 := by
  obtain ⟨hcounted, hout, -⟩ := (c.threads j).places.readerInside hj
  have hcount := hI.count
  rcases hI.mutex_cases with h | ⟨i, hi⟩
  · have hroom := hI.outside h
    have := le_total Thread.counted c.threads j
    rw [Rwlock.occupied, if_pos (by omega)] at hroom
    omega
  · have hij : i ≠ j := by
      rintro rfl
      omega
    have := add_le_total Thread.counted c.threads hij
    have := hI.inside i hi
    rw [Thread.own_pos hi (hI.regs i) (by omega)] at this
    omega

theorem Inv.no_reader {c : Conf (Tid numReaders numWriters) Shared Thread}
    (hI : Inv loops c) {i : Tid numReaders numWriters}
    (hi : 0 < (c.threads i).writerInside) (j : Tid numReaders numWriters) :
    (c.threads j).readerInside = 0 := by
  by_contra hj
  have := hI.readers_exclude (Nat.pos_of_ne_zero hj)
  have := le_total Thread.writerInside c.threads i
  omega

theorem Inv.writer_unique {c : Conf (Tid numReaders numWriters) Shared Thread}
    (hI : Inv loops c) {i j : Tid numReaders numWriters}
    (hi : 0 < (c.threads i).writerInside) (hj : 0 < (c.threads j).writerInside) : i = j := by
  by_contra hij
  have := add_le_total Thread.writerInside c.threads hij
  have := hI.writers_le
  omega

/-- The room does not change its value for the thread that moves. -/
theorem Inv.room_step {c c' : Conf (Tid numReaders numWriters) Shared Thread}
    (hI : Inv loops c) {i : Tid numReaders numWriters}
    (h : c.step (thread lockCode loops) i = some c') :
    c'.shared.lock.writelock + total Thread.writerInside c'.threads
        + (c'.threads i).own c'.shared.lock
      = c.shared.lock.writelock + total Thread.writerInside c.threads
        + (c.threads i).own c.shared.lock := by
  have hcount := hI.count
  have := le_total Thread.counted c.threads i
  have := (thread_spec (Conf.step_mover h)).room (hI.regs i) (by omega) (by omega)
  have := Conf.total_step Thread.writerInside h
  omega

/-- What the mover knows of the room before its step: it is in a section, or
takes the free `mutex`, or stays outside. -/
theorem Inv.room_mover {c : Conf (Tid numReaders numWriters) Shared Thread}
    (hI : Inv loops c) {i : Tid numReaders numWriters}
    (h : (c.threads i).inMutex = 1 ∨ c.shared.lock.mutex = 1) :
    c.shared.lock.writelock + total Thread.writerInside c.threads
      + (c.threads i).own c.shared.lock = 1 := by
  by_cases hi : (c.threads i).inMutex = 1
  · exact hI.inside i hi
  · have := (c.threads i).places.inMutex_le
    rw [(c.threads i).places.own_outside (by omega)]
    exact hI.outside (h.resolve_left hi)

theorem inv_step {i : Tid numReaders numWriters}
    {c c' : Conf (Tid numReaders numWriters) Shared Thread} (hI : Inv loops c)
    (h : (program numReaders numWriters loops).next i c = some c') : Inv loops c' := by
  have hspec := thread_spec (Conf.step_mover h)
  have hown := hI.regs i
  have hlaw := hspec.mutex
  have hsmall := (c.threads i).places.inMutex_le
  have hroom := hI.room_step h
  have hmutex : c'.shared.lock.mutex + total Thread.inMutex c'.threads = 1 :=
    (Conf.step_total (g := fun s => s.lock.mutex) h hlaw).trans hI.mutex
  have hone := hI.mutex
  refine ⟨hmutex, ?count, ?inside, ?outside, ?value, ?regs⟩
  case count =>
    have := Conf.total_step Thread.counted h
    have := hspec.count hown
    have := hI.count
    omega
  case inside =>
    intro j hj
    by_cases hji : j = i
    · subst hji
      rw [hroom]
      exact hI.room_mover (by omega)
    · -- another thread is in the section, so the mover stays outside of it
      have h1 := add_le_total Thread.inMutex c'.threads hji
      rw [Conf.step_threads_ne h hji] at hj h1 ⊢
      have := add_le_total Thread.inMutex c.threads hji
      have hreaders := hspec.frame (by omega)
      rw [(c.threads i).places.own_outside (by omega),
        (c'.threads i).places.own_outside (by omega), Rwlock.occupied, Rwlock.occupied,
        hreaders] at hroom
      have := hI.inside j hj
      rw [(c.threads j).places.own_congr hreaders]
      omega
  case outside =>
    intro hfree
    have := le_total Thread.inMutex c'.threads i
    rw [← (c'.threads i).places.own_outside (by omega), hroom]
    exact hI.room_mover (by omega)
  case value =>
    have htotal := Conf.total_step (ReaderWriterMain.Thread.toWrite loops) h
    have hround := hspec.toWrite hown
    rw [hspec.value hown, hI.value, CInt.signed_count]
    congr 1
    omega
  case regs =>
    refine Conf.step_forall (A := Thread.RegOk loops) h (hspec.reg hown) ?_
    intro j hj
    refine (hI.regs j).frame (fun hm => hspec.frame ?_) (fun hv => hspec.frameValue ?_)
    · have := add_le_total Thread.inMutex c.threads hj
      omega
    · have := add_le_total Thread.writerInside c.threads hj
      have := hI.writers_le
      by_cases hr : 0 < (c.threads j).readerInside
      · have := hI.readers_exclude hr
        omega
      · omega

theorem inv_inductive :
    (program numReaders numWriters loops).Inductive (Inv loops) :=
  ⟨inv_init, inv_step⟩

/-! ## The account of `value` -/

section Account
variable {ls : List (Tid numReaders numWriters)}
  {c : Conf (Tid numReaders numWriters) Shared Thread}

/-- Every increment that is not left to do has been stored once. -/
theorem increments_account (h : (program numReaders numWriters loops).Reaches ls c) :
    total (ReaderWriterMain.Thread.toWrite loops) c.threads
      + (program numReaders numWriters loops).count
          (movedFrom ReaderWriterMain.Thread.storesValue) ls = numWriters * loops := by
  have hstart : total (ReaderWriterMain.Thread.toWrite loops)
      (initial lockCode numReaders numWriters).threads = numWriters * loops := by
    simp [initial, total]
  exact (threads_drain inv_inductive
    (fun hI hf => (thread_spec hf).toWrite (hI.regs _)) h).trans hstart

/-- `value` is the number of increments stored so far, as an `int`. -/
theorem value_account (h : (program numReaders numWriters loops).Reaches ls c) :
    c.shared.value = CInt.signed 32 ((program numReaders numWriters loops).count
      (movedFrom ReaderWriterMain.Thread.storesValue) ls) := by
  have hI : Inv loops c := inv_inductive.reachable h.reachable
  have haccount := increments_account h
  rw [hI.value]
  congr 1
  omega

/-- What a reader is about to print is `value`. -/
theorem printed_account (h : (program numReaders numWriters loops).Reaches ls c)
    {j : Tid numReaders numWriters} {v : Int} {i : Nat}
    (hj : c.threads j = .reader ⟨.printValue v, i⟩) :
    v = CInt.signed 32 ((program numReaders numWriters loops).count
      (movedFrom ReaderWriterMain.Thread.storesValue) ls) := by
  have hI : Inv loops c := inv_inductive.reachable h.reachable
  have hreg := hI.regs j
  rw [hj, Thread.RegOk] at hreg
  rw [hreg, value_account h]

/-- What the lock keeps in `c`: no writer is between its acquire and its release of the
write lock while a reader is inside, or while another writer is; and while no thread is in
a `mutex` section, `readers` is the number of readers inside. -/
structure Exclusion (c : Conf (Tid numReaders numWriters) Shared Thread) : Prop where
  reader : ∀ i j, 0 < (c.threads i).writerInside → (c.threads j).readerInside = 0
  writer : ∀ i j, 0 < (c.threads i).writerInside → 0 < (c.threads j).writerInside → i = j
  readers : (∀ i, (c.threads i).inMutex = 0) →
    c.shared.lock.readers = total Thread.readerInside c.threads

theorem Inv.exclusion (hI : Inv loops c) : Exclusion c where
  reader _ j hi := hI.no_reader hi j
  writer _ _ := hI.writer_unique
  readers hout := by
    rw [hI.count, total_congr fun i => (c.threads i).places.counted_outside (hout i)]

end Account

end CAdvanced.ReaderWriter
