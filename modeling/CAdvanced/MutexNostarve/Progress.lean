import CAdvanced.MutexNostarve.Bypass

/-!
# MutexNostarve — Progress

No deadlock. A thread that waits for `mutex` waits for a thread in a section,
which waits for nothing; and the token is with a thread, which waits for
`mutex` at most, or in a turnstile. There it is where somebody needs it
(`Doors`): `drehkreuz2` is open only if somebody is in the second waiting room,
and `drehkreuz1` only if somebody is in the first one or nobody in the second.
-/

namespace CAdvanced.MutexNostarve

open Interleave System

/-! ## The open door -/

/-- Has found that it was not the last one in `warteraum1`, and has not yet
opened `drehkreuz1`. -/
@[simp] def Worker.busy : Worker → Bool
  | ⟨.acquire .postMutexBusy, _⟩ | ⟨.acquire .postDrehkreuz1, _⟩ => true
  | _ => false

/-- About to open the second turnstile, on acquire. -/
@[simp] def Worker.posts2 : Worker → Bool
  | ⟨.acquire .postDrehkreuz2, _⟩ => true
  | _ => false

/-- About to open the second turnstile, on release. -/
@[simp] def Worker.reopens2 : Worker → Bool
  | ⟨.release .postDrehkreuz2, _⟩ => true
  | _ => false

/-- One step of a worker, as far as the doors are concerned. -/
structure DoorSpec (s s' : Shared) (a b : Worker) : Prop where
  door1 : 0 < s'.mutex.drehkreuz1 →
    0 < s.mutex.drehkreuz1 ∨ a.busy = true ∨ a.reopens1 = true
  door2 : 0 < s'.mutex.drehkreuz2 →
    0 < s.mutex.drehkreuz2 ∨ a.posts2 = true ∨ a.reopens2 = true
  busy : b.busy = true → a.busy = true ∨ s'.mutex.warteraum1 ≠ 0

theorem worker_doors {s s' : Shared} {a b : Worker}
    (h : worker s a = some (s', b)) : DoorSpec s s' a b := by
  obtain ⟨pc, n⟩ := a
  cases pc with
  | idle =>
      cases n <;> simp only [worker, Option.some.injEq, Prod.mk.injEq] at h <;>
        obtain ⟨rfl, rfl⟩ := h <;> constructor <;> simp
  | acquire p =>
      simp only [worker, Option.map_eq_some_iff, Prod.mk.injEq, Prod.exists] at h
      obtain ⟨m, k, hk, rfl, rfl⟩ := h
      cases p with
      | waitMutex | waitDrehkreuz1 | waitMutexAgain | waitDrehkreuz2 =>
          simp only [nsMutexAcquire, Option.map_eq_some_iff, semWait_eq_some,
            Prod.mk.injEq] at hk
          obtain ⟨u, hu, rfl, rfl⟩ := hk
          constructor <;> simp [hu]
      | testWarteraum1 =>
          simp only [nsMutexAcquire, Option.some.injEq, Prod.mk.injEq] at hk
          obtain ⟨rfl, rfl⟩ := hk
          by_cases hw : s.mutex.warteraum1 = 0 <;> constructor <;> simp [hw]
      | _ =>
          simp only [nsMutexAcquire, Option.some.injEq, Prod.mk.injEq] at hk
          obtain ⟨rfl, rfl⟩ := hk
          constructor <;> simp
  | release p =>
      simp only [worker, Option.map_eq_some_iff, Prod.mk.injEq, Prod.exists] at h
      obtain ⟨m, k, hk, rfl, rfl⟩ := h
      cases p with
      | testWarteraum2 =>
          simp only [nsMutexRelease, Option.some.injEq, Prod.mk.injEq] at hk
          obtain ⟨rfl, rfl⟩ := hk
          split <;> constructor <;> simp
      | _ =>
          simp only [nsMutexRelease, Option.some.injEq, Prod.mk.injEq] at hk
          obtain ⟨rfl, rfl⟩ := hk
          constructor <;> simp
  | loadCritical | storeCritical r =>
      simp only [worker, Option.some.injEq, Prod.mk.injEq] at h
      obtain ⟨rfl, rfl⟩ := h
      constructor <;> simp
  | finished => cases h

theorem Worker.hasToken_of_leaves1 {w : Worker} (h : w.leaves1 = true) : w.hasToken = 1 := by
  obtain ⟨pc, n⟩ := w
  cases pc with
  | acquire p => cases p <;> simp_all
  | _ => cases h

theorem Worker.of_busy {w : Worker} (h : w.busy = true) :
    w.hasToken = 1 ∧ w.leaves1 = false := by
  obtain ⟨pc, n⟩ := w
  cases pc with
  | acquire p => cases p <;> simp_all
  | _ => cases h

theorem Worker.of_reopens {w : Worker} (h : w.reopens1 = true ∨ w.reopens2 = true) :
    w.enters2 = false ∧ w.leaves2 = false := by
  obtain ⟨pc, n⟩ := w
  cases pc with
  | release p => exact ⟨rfl, rfl⟩
  | _ => simp at h

theorem Worker.of_reopens2 {s : Shared} {w : Worker} (h : w.reopens2 = true)
    (hreg : w.RegOk s) : s.mutex.warteraum2 ≠ 0 := by
  obtain ⟨pc, n⟩ := w
  cases pc with
  | release p => cases p <;> simp_all
  | _ => cases h

theorem Worker.room2_of_posts2 {s s' : Shared} {w w' : Worker} (h : w.posts2 = true)
    (hw : worker s w = some (s', w')) : w'.inWarteraum2 = 1 := by
  obtain ⟨pc, n⟩ := w
  cases pc with
  | acquire p =>
      cases p with
      | postDrehkreuz2 => cases hw; rfl
      | _ => cases h
  | _ => cases h

variable {ι : Type} [Fintype ι] {rounds : ι → Nat}

/-- **The doors**: an open turnstile is one that somebody needs. -/
structure Doors (c : Conf ι Shared Worker) : Prop where
  door1 : 0 < c.shared.mutex.drehkreuz1 →
    0 < c.shared.mutex.warteraum1 ∨ c.shared.mutex.warteraum2 = 0
  door2 : 0 < c.shared.mutex.drehkreuz2 → 0 < c.shared.mutex.warteraum2
  busy : ∀ i, (c.threads i).busy = true → 0 < c.shared.mutex.warteraum1

theorem Inv.rooms_nonneg {c : Conf ι Shared Worker} (hI : Inv rounds c) :
    0 ≤ c.shared.mutex.warteraum1 ∧ 0 ≤ c.shared.mutex.warteraum2 := by
  rw [hI.room1, hI.room2]
  omega

/-- Nobody is counted in an empty waiting room. -/
theorem Inv.le_rooms {c : Conf ι Shared Worker} (hI : Inv rounds c) (i : ι) :
    (c.threads i).inWarteraum1 ≤ c.shared.mutex.warteraum1
      ∧ (c.threads i).inWarteraum2 ≤ c.shared.mutex.warteraum2 := by
  have := le_total Worker.inWarteraum1 c.threads i
  have := le_total Worker.inWarteraum2 c.threads i
  have := hI.room1
  have := hI.room2
  omega

variable [DecidableEq ι]

/-- `warteraum1` only shrinks by the hand of the one with the token. -/
theorem Inv.warteraum1_le {i : ι} {c c' : Conf ι Shared Worker} (hI : Inv rounds c)
    (h : (program rounds).next i c = some c') (hi : (c.threads i).leaves1 = false) :
    c.shared.mutex.warteraum1 ≤ c'.shared.mutex.warteraum1 := by
  have := (worker_spec (Conf.step_mover h)).store1 (hI.regs i)
  rw [hi, Bool.toNat_false] at this
  omega

theorem doors_step {i : ι} {c c' : Conf ι Shared Worker} (hI : Inv rounds c) (hD : Doors c)
    (h : (program rounds).next i c = some c') : Doors c' := by
  have hmove := Conf.step_mover h
  have hspec := worker_spec hmove
  have hdoor := worker_doors hmove
  have hI' := inv_step hI h
  -- a thread without the token leaves both rooms as full as they are
  have hquiet : (c.threads i).hasToken = 0 →
      c.shared.mutex.warteraum1 ≤ c'.shared.mutex.warteraum1
        ∧ c'.shared.mutex.warteraum2 = c.shared.mutex.warteraum2 := by
    intro h0
    refine ⟨hI.warteraum1_le h ?_, (hspec.frame2 h0).1⟩
    rw [← Bool.not_eq_true]
    intro hl
    rw [Worker.hasToken_of_leaves1 hl] at h0
    cases h0
  have htoken := hI.token
  have hle := le_total Worker.hasToken c.threads i
  have hkeep2 : (c.threads i).reopens1 = true ∨ (c.threads i).reopens2 = true →
      c'.shared.mutex.warteraum2 = c.shared.mutex.warteraum2 := by
    intro hr
    obtain ⟨he, hl⟩ := Worker.of_reopens hr
    have := hspec.store2 (hI.regs i)
    rw [he, hl] at this
    simpa using this
  refine ⟨?door1, ?door2, ?busy⟩
  case door1 =>
    intro hopen
    rcases hdoor.door1 hopen with hold | hbusy | hreopens
    · obtain ⟨h1, h2⟩ := hquiet (by omega)
      rw [h2]
      exact (hD.door1 hold).imp_left fun hpos => Int.lt_of_lt_of_le hpos h1
    · have := hI.warteraum1_le h (Worker.of_busy hbusy).2
      exact .inl (Int.lt_of_lt_of_le (hD.busy i hbusy) this)
    · rw [hkeep2 (.inl hreopens)]
      exact .inr (Worker.of_reopens1 hreopens (hI.regs i)).1
  case door2 =>
    intro hopen
    rcases hdoor.door2 hopen with hold | hposts | hreopens
    · rw [(hquiet (by omega)).2]
      exact hD.door2 hold
    · have := (hI'.le_rooms i).2
      rw [Worker.room2_of_posts2 hposts hmove] at this
      omega
    · rw [hkeep2 (.inr hreopens)]
      have := Worker.of_reopens2 hreopens (hI.regs i)
      have := hI.rooms_nonneg.2
      omega
  case busy =>
    intro j hj
    by_cases hji : j = i
    · subst hji
      rcases hdoor.busy hj with hbusy | hne
      · have := hI.warteraum1_le h (Worker.of_busy hbusy).2
        exact Int.lt_of_lt_of_le (hD.busy j hbusy) this
      · have := hI'.rooms_nonneg.1
        omega
    · rw [Conf.step_threads_ne h hji] at hj
      have := add_le_total Worker.hasToken c.threads hji
      have := (Worker.of_busy hj).1
      exact Int.lt_of_lt_of_le (hD.busy j hj) (hquiet (by omega)).1

theorem doors_inductive : (program rounds).Inductive fun c => Inv rounds c ∧ Doors c where
  init := ⟨inv_init, fun _ => .inr rfl, nofun, nofun⟩
  step hc h := ⟨inv_step hc.1 h, doors_step hc.1 hc.2 h⟩

/-! ## Who can move -/

omit [DecidableEq ι] [Fintype ι] in
/-- A worker that is not done can move, or it waits for a semaphore. -/
theorem worker_isSome_or_waits {s : Shared} {w : Worker} (h : w.pc ≠ .finished) :
    (worker s w).isSome
      ∨ (s.mutex.mutex = 0 ∧ w.inMutex = 0)
      ∨ (s.mutex.drehkreuz1 = 0 ∧ w.atDrehkreuz1 = true)
      ∨ (s.mutex.drehkreuz2 = 0 ∧ w.atDrehkreuz2 = true) := by
  obtain ⟨pc, n⟩ := w
  cases pc with
  | idle => cases n <;> exact .inl rfl
  | acquire p =>
      cases p with
      | waitMutex | waitMutexAgain =>
          rcases Nat.eq_zero_or_pos s.mutex.mutex with h0 | hpos
          · exact .inr (.inl ⟨h0, rfl⟩)
          · simp [worker, nsMutexAcquire, semWait_isSome hpos]
      | waitDrehkreuz1 =>
          rcases Nat.eq_zero_or_pos s.mutex.drehkreuz1 with h0 | hpos
          · exact .inr (.inr (.inl ⟨h0, rfl⟩))
          · simp [worker, nsMutexAcquire, semWait_isSome hpos]
      | waitDrehkreuz2 =>
          rcases Nat.eq_zero_or_pos s.mutex.drehkreuz2 with h0 | hpos
          · exact .inr (.inr (.inr ⟨h0, rfl⟩))
          · simp [worker, nsMutexAcquire, semWait_isSome hpos]
      | _ => exact .inl rfl
  | loadCritical | storeCritical r => exact .inl rfl
  | release p => cases p <;> exact .inl rfl
  | finished => exact absurd rfl h

/-- Where the threads are that the semaphores know of. -/
structure Worker.Stands (w : Worker) : Prop where
  unfinished : 0 < w.inMutex + w.hasToken + w.inWarteraum1 + w.inWarteraum2 → w.pc ≠ .finished
  outside : w.atDrehkreuz1 = true ∨ w.atDrehkreuz2 = true → w.inMutex = 0 ∧ w.hasToken = 0
  room1 : 0 < w.inWarteraum1 → w.hasToken = 0 → w.atDrehkreuz2 = false
  room2 : 0 < w.inWarteraum2 → w.hasToken = 0 → w.atDrehkreuz2 = true
  at1 : w.atDrehkreuz1 = true → w.inWarteraum1 = 1 ∧ w.inWarteraum2 = 0
  at2 : w.atDrehkreuz2 = true → w.inWarteraum2 = 1 ∧ w.inWarteraum1 = 0

theorem Worker.stands (w : Worker) : w.Stands := by
  obtain ⟨pc, n⟩ := w
  cases pc with
  | acquire p => cases p <;> constructor <;> simp
  | _ => constructor <;> simp

/-- A thread that waits for `mutex` waits for one that does not wait. -/
theorem Inv.canMove_of_mutex {c : Conf ι Shared Worker} (hI : Inv rounds c)
    (h : c.shared.mutex.mutex = 0) : (program rounds).CanMove c := by
  have hmutex := hI.mutex
  have hpos : 0 < total Worker.inMutex c.threads := by omega
  obtain ⟨i, hi⟩ := exists_of_total_pos hpos
  refine ⟨i, Conf.step_isSome ?_⟩
  rcases worker_isSome_or_waits ((c.threads i).stands.unfinished (by omega))
    with hmove | ⟨-, hout⟩ | ⟨-, hat⟩ | ⟨-, hat⟩
  · exact hmove
  · omega
  · have := ((c.threads i).stands.outside (.inl hat)).1
    omega
  · have := ((c.threads i).stands.outside (.inr hat)).1
    omega

omit [Fintype ι] in
/-- While `mutex` is free, a thread with the token moves. -/
theorem canMove_of_token {c : Conf ι Shared Worker} {i : ι}
    (hfree : 0 < c.shared.mutex.mutex) (hi : 0 < (c.threads i).hasToken) :
    (program rounds).CanMove c := by
  refine ⟨i, Conf.step_isSome ?_⟩
  rcases worker_isSome_or_waits ((c.threads i).stands.unfinished (by omega))
    with hmove | ⟨h0, -⟩ | ⟨-, hat⟩ | ⟨-, hat⟩
  · exact hmove
  · omega
  · have := ((c.threads i).stands.outside (.inl hat)).2
    omega
  · have := ((c.threads i).stands.outside (.inr hat)).2
    omega

omit [DecidableEq ι] in
/-- The first turnstile is not open in vain: not everybody who is left waits at
the second one. -/
theorem Doors.exists_before1 {c : Conf ι Shared Worker} (hD : Doors c) (hI : Inv rounds c)
    (hopen : 0 < c.shared.mutex.drehkreuz1) {j : ι} (hj : (c.threads j).atDrehkreuz2 = true) :
    ∃ i, 0 < (c.threads i).inWarteraum1 ∧ (c.threads i).hasToken = 0 := by
  have hfull := (hI.le_rooms j).2
  rw [((c.threads j).stands.at2 hj).1] at hfull
  have hroom := hI.room1
  rcases hD.door1 hopen with hpos | hempty
  · have hpos : 0 < total Worker.inWarteraum1 c.threads := by omega
    obtain ⟨i, hi⟩ := exists_of_total_pos hpos
    have := le_total Worker.hasToken c.threads i
    have := hI.token
    exact ⟨i, hi, by omega⟩
  · omega

omit [DecidableEq ι] in
/-- Nor is the second one: somebody waits there. -/
theorem Doors.exists_before2 {c : Conf ι Shared Worker} (hD : Doors c) (hI : Inv rounds c)
    (hopen : 0 < c.shared.mutex.drehkreuz2) : ∃ i, (c.threads i).atDrehkreuz2 = true := by
  have hroom := hI.room2
  have hpos := hD.door2 hopen
  have hpos : 0 < total Worker.inWarteraum2 c.threads := by omega
  obtain ⟨i, hi⟩ := exists_of_total_pos hpos
  have := le_total Worker.hasToken c.threads i
  have := hI.token
  exact ⟨i, (c.threads i).stands.room2 hi (by omega)⟩

/-- A state with an unfinished thread has a step. -/
theorem Doors.canMove {c : Conf ι Shared Worker} (hD : Doors c) (hI : Inv rounds c) {i : ι}
    (hi : (c.threads i).pc ≠ .finished) : (program rounds).CanMove c := by
  by_cases hmutex : c.shared.mutex.mutex = 0
  · exact hI.canMove_of_mutex hmutex
  have hfree : 0 < c.shared.mutex.mutex := Nat.pos_of_ne_zero hmutex
  by_cases htoken : 0 < total Worker.hasToken c.threads
  · obtain ⟨j, hj⟩ := exists_of_total_pos htoken
    exact canMove_of_token hfree hj
  -- the token is in one of the turnstiles
  have hdoors := hI.token
  rcases worker_isSome_or_waits hi with hmove | ⟨h0, -⟩ | ⟨hclosed, -⟩ | ⟨hclosed, hat⟩
  · exact ⟨i, Conf.step_isSome hmove⟩
  · exact absurd h0 hmutex
  · obtain ⟨j, hj⟩ := hD.exists_before2 hI (by omega)
    have hstands := (c.threads j).stands
    refine ⟨j, Conf.step_isSome ?_⟩
    have hpc := hstands.unfinished (by have := (hstands.at2 hj).1; omega)
    rcases worker_isSome_or_waits hpc with hmove | ⟨h0, -⟩ | ⟨-, hat1⟩ | ⟨h0, -⟩
    · exact hmove
    · exact absurd h0 hmutex
    · have := (hstands.at1 hat1).2
      have := (hstands.at2 hj).1
      omega
    · omega
  · obtain ⟨j, hj, hnone⟩ := hD.exists_before1 hI (by omega) hat
    have hstands := (c.threads j).stands
    refine ⟨j, Conf.step_isSome ?_⟩
    rcases worker_isSome_or_waits (hstands.unfinished (by omega))
      with hmove | ⟨h0, -⟩ | ⟨h0, -⟩ | ⟨-, hat2⟩
    · exact hmove
    · exact absurd h0 hmutex
    · omega
    · rw [hstands.room1 hj hnone] at hat2
      cases hat2

/-- **No deadlock**: in every reachable state in which some thread has not
finished a thread can move. The token is not left in `drehkreuz1` while all
remaining threads wait at `drehkreuz2`, nor in `drehkreuz2` while all of them
wait at `drehkreuz1`. -/
theorem mutex_nostarve_deadlock_free (rounds : ι → Nat) {c : Conf ι Shared Worker}
    (h : (program rounds).Reachable c) (hleft : ∃ i, (c.threads i).pc ≠ .finished) :
    (program rounds).CanMove c
      ∧ ¬ (0 < c.shared.mutex.drehkreuz1
        ∧ ∀ i, (c.threads i).pc ≠ .finished → (c.threads i).atDrehkreuz2 = true)
      ∧ ¬ (0 < c.shared.mutex.drehkreuz2
        ∧ ∀ i, (c.threads i).pc ≠ .finished → (c.threads i).atDrehkreuz1 = true) := by
  obtain ⟨hI, hD⟩ := doors_inductive.reachable h
  obtain ⟨i, hi⟩ := hleft
  refine ⟨hD.canMove hI hi, ?_, ?_⟩
  · rintro ⟨hopen, hall⟩
    obtain ⟨j, hj, hnone⟩ := hD.exists_before1 hI hopen (hall i hi)
    have hstands := (c.threads j).stands
    have hat := hall j (hstands.unfinished (by omega))
    rw [hstands.room1 hj hnone] at hat
    cases hat
  · rintro ⟨hopen, hall⟩
    obtain ⟨j, hj⟩ := hD.exists_before2 hI hopen
    have hstands := (c.threads j).stands
    have hat := hall j (hstands.unfinished (by have := (hstands.at2 hj).1; omega))
    have := (hstands.at1 hat).2
    have := (hstands.at2 hj).1
    omega

/-- Three threads: two wait at `drehkreuz1`, and the third one, which came first,
has the token. -/
theorem mutex_nostarve_deadlock_free_waiting :
    ∃ c, (program fun _ : Fin 3 => 1).Reachable c
      ∧ (worker c.shared (c.threads 0)).isNone ∧ (worker c.shared (c.threads 1)).isNone
      ∧ (program fun _ : Fin 3 => 1).CanMove c := by
  obtain ⟨c, hrun, hc⟩ := Option.any_eq_true _ _ |>.mp
    (show (((program fun _ : Fin 3 => 1).exec
        (List.replicate 6 2 ++ List.replicate 5 0 ++ List.replicate 5 1)
        (initial fun _ => 1)).any fun c =>
      (worker c.shared (c.threads 0)).isNone ∧ (worker c.shared (c.threads 1)).isNone
        ∧ (c.threads 0).pc ≠ .finished) = true by decide +kernel)
  obtain ⟨h0, h1, hleft⟩ := of_decide_eq_true hc
  exact ⟨c, ⟨_, hrun⟩, h0, h1, (mutex_nostarve_deadlock_free _ ⟨_, hrun⟩ ⟨0, hleft⟩).1⟩

end CAdvanced.MutexNostarve
