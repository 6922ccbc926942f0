import CAdvanced.MybufferSync.Driver

/-!
# MybufferSync — Conservation

Nothing gets lost between the two counters: what they say, with the bytes that a call has
subtracted and not yet added, is `MAX_BUFFER_SIZE`. That neither of them gets negative
rests on a one-sided fact. Only the holder of its lock subtracts from a counter, so a
`to_copy` that was at most the counter stays so until it is used, whatever the other side
does (`Bounded`).
-/

namespace CAdvanced.MybufferSync.Driver

open Interleave System

variable {β ι : Type}

/-- Between the lock and the unlock. -/
def Pc.locked : Pc → Bool
  | .readCounter | .copy | .atomicSub | .atomicAdd | .spinUnlock => true
  | _ => false

/-- The critical section of a side. -/
def inSection (side : Side) : Option (Frame β) → Bool
  | none => false
  | some f => f.pc.locked && f.side = side

/-- The bytes that a call has subtracted from one counter and not yet added to the other. -/
def inTransit : Option (Frame β) → Nat
  | some f => if f.pc = .atomicAdd then f.copied else 0
  | none => 0

/-- A `to_copy` that has been read and not yet subtracted is at most the counter. -/
def Bounded (s : Shared β ι) (t : Option (Frame β)) : Prop :=
  ∀ f, t = some f → f.pc = .copy ∨ f.pc = .atomicSub →
    (f.toCopy : Int) ≤ s.counter f.side ∧ f.toCopy ≤ f.size

/-- **What the driver keeps**, in every reachable state. -/
structure Inv [Fintype ι] (c : State β ι) : Prop where
  memory : c.shared.kernelmem.length = maxBufferSize
  holder : ∀ side i, inSection side (c.threads i) = true ↔ c.shared.lock side = some i
  nonneg : ∀ side, 0 ≤ c.shared.counter side
  conserved : c.shared.counter .read + c.shared.counter .write + total inTransit c.threads
    = maxBufferSize
  bounded : ∀ i, Bounded c.shared (c.threads i)

/-! ## What a step does to the counters and the locks -/

theorem add_sum (s : Shared β ι) (side : Side) (n : Int) :
    (s.add side n).counter .read + (s.add side n).counter .write
      = s.counter .read + s.counter .write + n := by
  rw [add_counter, add_counter]
  cases side with
  | read => simp; omega
  | write => simp; omega

/-- A call that has not taken the lock, or has given it back. -/
theorem Waits.quiet {s : Shared β ι} {f : Frame β} {p : Pc} (h : Waits s f p) :
    p.locked = false ∧ p ≠ .atomicAdd ∧ p ≠ .copy ∧ p ≠ .atomicSub := by
  rcases h.goal with ⟨q, rfl⟩ | rfl | rfl | rfl <;> simp [Pc.locked]

variable {i : ι} {s s' : Shared β ι} {t t' : Option (Frame β)}

theorem inSection_of_unlocked {f : Frame β} (h : f.pc.locked = false) (side : Side) :
    inSection side (some f) = false := by
  rw [inSection, h, Bool.false_and]

theorem inSection_of_ne {f : Frame β} {side : Side} (h : f.side ≠ side) :
    inSection side (some f) = false := by
  rw [inSection, decide_eq_false h, Bool.and_false]

theorem inSection_self {f : Frame β} (h : f.pc.locked = true) :
    inSection f.side (some f) = true := by
  rw [inSection, h, decide_eq_true rfl]
  rfl

/-- A call that stays in its section, or outside of it. -/
theorem inSection_congr {f f' : Frame β} (hside : f'.side = f.side)
    (hpc : f'.pc.locked = f.pc.locked) (side : Side) :
    inSection side (some f') = inSection side (some f) := by
  simp only [inSection, hside, hpc]

/-- A step moves the lock of a side with the section of that side. -/
theorem Effect.moves (h : Effect i s t s' t') (side : Side) :
    Mutex.Moves i (s.lock side) (inSection side t) (s'.lock side) (inSection side t') := by
  cases h with
  | enter c => exact .keep
  | @wait f q p hpc hq hp =>
      have hbefore : f.pc.locked = false := by
        rcases hpc with hpc | ⟨p, hpc⟩ <;> rw [hpc] <;> rfl
      refine .of_eq rfl ?_
      rw [inSection_of_unlocked hbefore]
      exact inSection_of_unlocked hp.quiet.1 side
  | @spinLock f hpc hfree =>
      by_cases hside : f.side = side
      · subst hside
        have hafter : inSection f.side (some (f.goto .readCounter)) = true := by
          exact inSection_self (f := f.goto .readCounter) rfl
        rw [setLock_lock, if_pos rfl, hfree, inSection_of_unlocked (by rw [hpc]; rfl), hafter]
        exact .lock
      · refine .of_eq ?_ ?_
        · rw [setLock_lock, if_neg (Ne.symm hside)]
        · rw [inSection_of_ne hside]
          exact inSection_of_ne hside
  | @spinUnlock f hpc =>
      by_cases hside : f.side = side
      · subst hside
        rw [setLock_lock, if_pos rfl, inSection_self (by rw [hpc]; rfl)]
        exact .unlock
      · refine .of_eq ?_ ?_
        · rw [setLock_lock, if_neg (Ne.symm hside)]
        · rw [inSection_of_ne hside]
          exact inSection_of_ne hside
  | ret hpc => exact .of_eq rfl (inSection_of_unlocked (by rw [hpc]; rfl) side).symm
  | readCounter hpc | copy hpc | atomicSub hpc | atomicAdd hpc | wakeUp hpc =>
      refine .of_eq rfl (inSection_congr ?_ ?_ side)
      · rfl
      · rw [hpc]
        rfl

/-- A step changes the counters by what goes into transit, or comes out of it. -/
theorem Effect.conserved (h : Effect i s t s' t') :
    s'.counter .read + s'.counter .write + inTransit t'
      = s.counter .read + s.counter .write + inTransit t := by
  cases h with
  | enter c => rfl
  | @wait f q p hpc hq hp =>
      have hbefore : f.pc ≠ .atomicAdd := by
        rcases hpc with hpc | ⟨p, hpc⟩ <;> simp [hpc]
      simp [inTransit, Frame.goto, Shared.setQueue, hbefore, hp.quiet.2.1]
  | atomicSub hpc =>
      rw [add_sum]
      simp [inTransit, Frame.goto, Frame.copied, hpc]
  | atomicAdd hpc =>
      rw [add_sum]
      simp [inTransit, Frame.goto, hpc]
  | spinLock hpc | spinUnlock hpc => simp [inTransit, Frame.goto, Shared.setLock, hpc]
  | wakeUp hpc => simp [inTransit, Frame.goto, Shared.setQueue, hpc]
  | readCounter hpc | copy hpc | ret hpc => simp [inTransit, hpc]

/-- **Only its own side subtracts from a counter**, in its section. -/
theorem Effect.counter_cases (h : Effect i s t s' t') (side : Side) :
    s.counter side ≤ s'.counter side ∨ ∃ f, t = some f ∧ f.pc = .atomicSub ∧ f.side = side
      ∧ s'.counter side = s.counter side - f.copied := by
  cases h with
  | @atomicSub f hpc =>
      by_cases hside : f.side = side
      · refine .inr ⟨f, rfl, hpc, hside, ?_⟩
        rw [add_counter, if_pos hside.symm, Int.sub_eq_add_neg]
      · refine .inl ?_
        rw [add_counter, if_neg (Ne.symm hside), Int.add_zero]
  | @atomicAdd f hpc =>
      refine .inl ?_
      rw [add_counter]
      split <;> omega
  | _ => exact .inl (Int.le_refl _)

/-- A step within the section keeps its own bound. -/
theorem Effect.bounded (h : Effect i s t s' t') (hs : Bounded s t)
    (hnonneg : ∀ side, 0 ≤ s.counter side) (hmax : ∀ side, s.counter side ≤ maxBufferSize) :
    Bounded s' t' := by
  intro f' hf' hpc'
  cases h with
  | enter c =>
      cases hf'
      exact hpc'.elim nofun nofun
  | wait hpc hq hp =>
      cases hf'
      exact absurd hpc' (not_or.mpr hp.quiet.2.2)
  | @readCounter f hpc =>
      cases hf'
      have h0 := hnonneg f.side
      have h32 := hmax f.side
      refine ⟨?_, Nat.min_le_right _ _⟩
      show ((min (sizeT (s.counter f.side)) f.size : Nat) : Int) ≤ s.counter f.side
      unfold sizeT
      unfold maxBufferSize at h32
      omega
  | @copy f mem refused delivered hpc hmem =>
      cases hf'
      exact hs f rfl (.inl hpc)
  | spinLock | atomicSub | atomicAdd | spinUnlock | wakeUp =>
      cases hf'
      exact absurd hpc' (by simp [Frame.goto])
  | ret => cases hf'

/-- `kernelmem` stays as long as it is. -/
theorem Effect.memory (h : Effect i s t s' t') (hs : Bounded s t)
    (hmax : ∀ side, s.counter side ≤ s.kernelmem.length) :
    s'.kernelmem.length = s.kernelmem.length := by
  cases h with
  | @copy f mem refused delivered hpc hmem =>
      obtain ⟨hcounter, hsize⟩ := hs f rfl (.inl hpc)
      have hle := hmax f.side
      exact hmem (by omega) hsize
  | _ => rfl

/-! ## In every reachable state -/

variable [Fintype ι]

/-- Neither counter gets above `MAX_BUFFER_SIZE`. -/
theorem Inv.le_max {c : State β ι} (hI : Inv c) (side : Side) :
    c.shared.counter side ≤ maxBufferSize := by
  have hconserved := hI.conserved
  have hread := hI.nonneg .read
  have hwrite := hI.nonneg .write
  cases side <;> omega

theorem Inv.le_memory {c : State β ι} (hI : Inv c) (side : Side) :
    c.shared.counter side ≤ c.shared.kernelmem.length := by
  rw [hI.memory]
  exact hI.le_max side

/-- Nobody but the mover is in the section that the mover is in. -/
theorem Inv.alone {c : State β ι} (hI : Inv c) {side : Side} {i j : ι}
    (hi : inSection side (c.threads i) = true) (hj : inSection side (c.threads j) = true) :
    j = i := by
  have hlock := (hI.holder side i).mp hi
  rw [(hI.holder side j).mp hj] at hlock
  exact Option.some.inj hlock

variable [Zero β] [DecidableEq ι]

omit [DecidableEq ι] in
theorem inv_start : Inv (start : State β ι) where
  memory := List.length_replicate
  holder := fun _ _ => by simp [start, inSection]
  nonneg := fun
    | .read => Int.le_refl 0
    | .write => Int.natCast_nonneg _
  conserved := by
    have hnobody : total inTransit (start : State β ι).threads = 0 := total_eq_zero fun _ => rfl
    rw [hnobody]
    rfl
  bounded := fun _ _ => nofun

theorem Inv.step {l : ι × Action β} {c c' : State β ι} (hI : Inv c)
    (h : (mybuffer β ι).next l c = some c') : Inv c' := by
  have heffect := next_effect h
  refine ⟨?memory, fun side => ?holder, fun side => ?nonneg, ?conserved, ?bounded⟩
  case memory => rw [heffect.memory (hI.bounded l.1) hI.le_memory, hI.memory]
  case holder =>
    exact (heffect.moves side).holder (hI.holder side) rfl rfl
      fun j hj => by rw [Conf.step_threads_ne h hj]
  case nonneg =>
    have hbefore := hI.nonneg side
    rcases heffect.counter_cases side with hle | ⟨f, hf, hpc, hside, heq⟩
    · omega
    · have hbound := (hI.bounded l.1 f hf (.inr hpc)).1
      rw [hside] at hbound
      have hcopied : f.copied ≤ f.toCopy := Nat.sub_le _ _
      omega
  case conserved =>
    have hmove := heffect.conserved
    have htotal := Conf.total_step inTransit h
    have hbefore := hI.conserved
    omega
  case bounded =>
    apply Conf.step_forall (A := Bounded) h
    · exact heffect.bounded (hI.bounded l.1) hI.nonneg hI.le_max
    · intro j hj f hf hpc
      obtain ⟨hbound, hsize⟩ := hI.bounded j f hf hpc
      refine ⟨?_, hsize⟩
      rcases heffect.counter_cases f.side with hle | ⟨g, hg, hgpc, hgside, -⟩
      · exact Int.le_trans hbound hle
      · -- the mover would be in the section of this side as well
        have hmover : inSection f.side (c.threads l.1) = true := by
          rw [hg, ← hgside]
          exact inSection_self (by rw [hgpc]; rfl)
        have hother : inSection f.side (c.threads j) = true := by
          rw [hf]
          exact inSection_self (by rcases hpc with hpc | hpc <;> rw [hpc] <;> rfl)
        exact absurd (hI.alone hmover hother) hj

theorem inv_inductive : (mybuffer β ι).Inductive Inv := ⟨inv_start, Inv.step⟩

/-- **Conservation**: in every reachable state neither counter is negative, with the bytes
in transit they add up to `MAX_BUFFER_SIZE`, and a copy stays within `kernelmem`. -/
theorem bytes_conserved {c : State β ι} (h : (mybuffer β ι).Reachable c) :
    0 ≤ c.shared.bytesAvailable ∧ 0 ≤ c.shared.bytesThatCanBeWritten
      ∧ c.shared.bytesAvailable + c.shared.bytesThatCanBeWritten + total inTransit c.threads
        = maxBufferSize
      ∧ c.shared.kernelmem.length = maxBufferSize
      ∧ ∀ i f, c.threads i = some f → f.pc = .copy → f.toCopy ≤ maxBufferSize := by
  have hI := inv_inductive.reachable h
  refine ⟨hI.nonneg .read, hI.nonneg .write, hI.conserved, hI.memory, ?_⟩
  intro i f hf hpc
  have hbound := (hI.bounded i f hf (.inl hpc)).1
  have hmax := hI.le_max f.side
  omega

/-- A writer whose last byte cannot be read stands between its two additions, with two
bytes in transit. -/
theorem bytes_conserved_writer :
    ∃ c : State Nat (Fin 2), (mybuffer Nat (Fin 2)).Reachable c
      ∧ total inTransit c.threads = 2
      ∧ c.shared.bytesAvailable + c.shared.bytesThatCanBeWritten + 2 = maxBufferSize := by
  obtain ⟨c, hrun, hc⟩ := Option.any_eq_true _ _ |>.mp
    (show ((mybuffer Nat (Fin 2)).exec
        ((0, .call (.write ⟨false, 0⟩ [1, 2, 3])) :: List.replicate 6 (0, .step ⟨false, 1⟩))
        start).any (fun c => total inTransit c.threads = 2) = true by decide +kernel)
  have htransit := of_decide_eq_true hc
  have hconserved := (bytes_conserved ⟨_, hrun⟩).2.2.1
  rw [htransit] at hconserved
  exact ⟨c, ⟨_, hrun⟩, htransit, hconserved⟩

end CAdvanced.MybufferSync.Driver
