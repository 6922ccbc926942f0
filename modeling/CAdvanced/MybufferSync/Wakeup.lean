import CAdvanced.MybufferSync.Conservation

/-!
# MybufferSync — Wakeup

Nobody sleeps through a change. A call falls asleep only when its counter is zero, and
only an addition of the other side makes the counter positive again; the call that adds
has its `wake_up_interruptible` still to do. A subtraction of the own side does not count,
because conservation keeps the counter at zero (`Effect.possible`).
-/

namespace CAdvanced.MybufferSync.Driver

open Interleave System

variable {β ι : Type}

/-- The call of thread `i` is asleep on the queue of its side, and nobody has woken it. -/
def Sleeps (side : Side) (c : State β ι) (i : ι) : Prop :=
  ∃ f, c.threads i = some f ∧ f.side = side ∧ f.pc = .wait .asleep ∧ c.shared.queue side i = true

/-- A call of the other side, between its `atomic_add` and its `wake_up_interruptible`. -/
def Waking (side : Side) (t : Option (Frame β)) : Prop :=
  ∃ f, t = some f ∧ f.side.other = side ∧ (f.pc = .spinUnlock ∨ f.pc = .wakeUp)

/-- **No sleeper is forgotten**. -/
def Attended (c : State β ι) : Prop :=
  ∀ side i, Sleeps side c i → c.shared.Possible side → ∃ j, Waking side (c.threads j)

/-! ## What a step does to the queues -/

variable {i j : ι} {s s' : Shared β ι} {t t' : Option (Frame β)}

/-- A call falls asleep only when its counter is zero. -/
theorem Effect.sleeps (h : Effect i s t s' t') {f : Frame β} (ht : t' = some f)
    (hpc : f.pc = .wait .asleep) : ¬ s'.Possible f.side := by
  cases h with
  | wait hbefore hq hp =>
      cases ht
      exact hp.sleeps hpc
  | _ => cases ht <;> cases hpc

/-- Nobody is put on a queue by another one. -/
theorem Effect.queue (h : Effect i s t s' t') (hj : j ≠ i) {side : Side}
    (hq : s'.queue side j = true) : s.queue side j = true := by
  cases h with
  | @wait f q p hpc hframe hp =>
      rw [setQueue_queue] at hq
      by_cases hside : side = f.side
      · rw [if_pos hside, hframe j hj] at hq
        rw [hside]
        exact hq
      · rw [if_neg hside] at hq
        exact hq
  | @wakeUp f hpc =>
      rw [setQueue_queue] at hq
      by_cases hside : side = f.side.other
      · rw [if_pos hside] at hq
        cases hq
      · rw [if_neg hside] at hq
        exact hq
  | _ => exact hq

/-- The wake-up does not get lost: it stays to be done, or empties the queue. -/
theorem Effect.waking (h : Effect i s t s' t') {side : Side} (ht : Waking side t) :
    Waking side t' ∨ ∀ j, s'.queue side j = false := by
  obtain ⟨f, hf, hside, hpc⟩ := ht
  cases h with
  | spinUnlock =>
      cases hf
      exact .inl ⟨_, rfl, hside, .inr rfl⟩
  | wakeUp =>
      cases hf
      subst hside
      refine .inr fun j => ?_
      rw [setQueue_queue, if_pos rfl]
  | enter => cases hf
  | wait hbefore =>
      cases hf
      rcases hpc with hpc | hpc <;> simp [hpc] at hbefore
  | spinLock hbefore | readCounter hbefore | copy hbefore | atomicSub hbefore
  | atomicAdd hbefore | ret hbefore =>
      cases hf
      rcases hpc with hpc | hpc <;> cases hbefore.symm.trans hpc

/-- A counter becomes positive by an addition of the other side, which has its wake-up
still to do. -/
theorem Effect.possible (h : Effect i s t s' t') (hs : Bounded s t) {side : Side}
    (hnonneg : 0 ≤ s.counter side) (hpossible : s'.Possible side) :
    s.Possible side ∨ Waking side t' := by
  cases h with
  | @atomicSub f hpc =>
      refine .inl fun hzero => hpossible ?_
      rw [add_counter]
      split
      · rename_i hside
        subst hside
        have hbound := (hs f rfl (.inr hpc)).1
        have hcopied : f.copied ≤ f.toCopy := Nat.sub_le _ _
        omega
      · omega
  | @atomicAdd f hpc =>
      by_cases hside : side = f.side.other
      · exact .inr ⟨_, rfl, hside.symm, .inl rfl⟩
      · refine .inl fun hzero => hpossible ?_
        rw [add_counter, if_neg hside, Int.add_zero]
        exact hzero
  | _ => exact .inl hpossible

/-! ## In every reachable state -/

variable [Fintype ι] [Zero β] [DecidableEq ι]

theorem attended_step {l : ι × Action β} {c c' : State β ι} (hI : Inv c) (hA : Attended c)
    (h : (mybuffer β ι).next l c = some c') : Attended c' := by
  have heffect := next_effect h
  intro side i hsleeps hpossible
  obtain ⟨f, hf, hside, hpc, hq⟩ := hsleeps
  by_cases hi : i = l.1
  · -- the mover has just fallen asleep
    subst hi hside
    exact absurd hpossible (heffect.sleeps hf hpc)
  · rcases heffect.possible (hI.bounded l.1) (hI.nonneg side) hpossible with hold | hnew
    · rw [Conf.step_threads_ne h hi] at hf
      obtain ⟨j, hj⟩ := hA side i ⟨f, hf, hside, hpc, heffect.queue hi hq⟩ hold
      by_cases hjl : j = l.1
      · subst hjl
        rcases heffect.waking hj with hstill | hempty
        · exact ⟨_, hstill⟩
        · exact absurd (hq.symm.trans (hempty i)) nofun
      · exact ⟨j, by rwa [Conf.step_threads_ne h hjl]⟩
    · exact ⟨_, hnew⟩

theorem attended_inductive : (mybuffer β ι).Inductive fun c => Inv c ∧ Attended c where
  init := ⟨inv_start, fun _ _ ⟨_, hf, _⟩ => nomatch hf⟩
  step := fun hc h => ⟨hc.1.step h, attended_step hc.1 hc.2 h⟩

omit [Zero β] [DecidableEq ι] in
/-- Not everybody sleeps: if all calls did, and there were some of both sides, both counters
would be zero and nothing would be in transit. -/
theorem Inv.not_all_asleep {c : State β ι} (hI : Inv c) (hA : Attended c)
    (hall : ∀ i, c.threads i ≠ none → ∃ side, Sleeps side c i)
    (hboth : ∀ side, ∃ i, Sleeps side c i) : False := by
  have hasleep : ∀ i f, c.threads i = some f → f.pc = .wait .asleep := by
    intro i f hf
    obtain ⟨_, g, hg, -, hpc, -⟩ := hall i (by simp [hf])
    rw [hf] at hg
    cases hg
    exact hpc
  have hzero : ∀ side, c.shared.counter side = 0 := by
    intro side
    by_contra hpossible
    obtain ⟨i, hi⟩ := hboth side
    obtain ⟨j, f, hf, -, hpc⟩ := hA side i hi hpossible
    rw [hasleep j f hf] at hpc
    exact hpc.elim nofun nofun
  have htransit : total inTransit c.threads = 0 := by
    apply total_eq_zero
    intro i
    cases hf : c.threads i with
    | none => rfl
    | some f => simp [inTransit, hasleep i f hf]
  have hconserved := hI.conserved
  rw [hzero, hzero, htransit] at hconserved
  exact absurd hconserved (by decide)

/-- **No lost wake-up**: when a sleeper's counter is not zero, a call of the other side
stands between its `atomic_add` and its `wake_up_interruptible`; and the calls in progress
are never all asleep, readers and writers among them. -/
theorem no_lost_wakeup {c : State β ι} (h : (mybuffer β ι).Reachable c) :
    (∀ side i, Sleeps side c i → c.shared.Possible side → ∃ j, Waking side (c.threads j))
      ∧ ¬ ((∀ i, c.threads i ≠ none → ∃ side, Sleeps side c i)
        ∧ (∃ i, Sleeps .read c i) ∧ ∃ i, Sleeps .write c i) := by
  obtain ⟨hI, hA⟩ := attended_inductive.reachable h
  refine ⟨hA, ?_⟩
  rintro ⟨hall, hread, hwrite⟩
  refine hI.not_all_asleep hA hall fun side => ?_
  cases side with
  | read => exact hread
  | write => exact hwrite

/-- A reader sleeps while a writer has added a byte and not yet woken anybody. -/
theorem no_lost_wakeup_reader :
    ∃ c : State Nat (Fin 2), (mybuffer Nat (Fin 2)).Reachable c ∧ Sleeps .read c 1
      ∧ c.shared.bytesAvailable = 1 ∧ ∃ j, Waking .read (c.threads j) := by
  let reader : Frame Nat := ⟨.read ⟨false, 0⟩ 8, .wait .asleep, 0, 0, [], 0⟩
  obtain ⟨c, hrun, hc⟩ := Option.any_eq_true _ _ |>.mp
    (show ((mybuffer Nat (Fin 2)).exec
        ((1, .call reader.call) :: List.replicate 4 (1, .step ⟨false, 0⟩)
          ++ (0, .call (.write ⟨false, 0⟩ [7])) :: List.replicate 7 (0, .step ⟨false, 0⟩))
        start).any (fun c => c.threads 1 = some reader ∧ c.shared.queue .read 1 = true
          ∧ c.shared.bytesAvailable = 1) = true by decide +kernel)
  obtain ⟨hreader, hqueue, havailable⟩ := of_decide_eq_true hc
  have hsleeps : Sleeps .read c 1 := ⟨reader, hreader, rfl, rfl, hqueue⟩
  have hpossible : c.shared.Possible .read := by
    show c.shared.bytesAvailable ≠ 0
    omega
  exact ⟨c, ⟨_, hrun⟩, hsleeps, havailable, (no_lost_wakeup ⟨_, hrun⟩).1 _ _ hsleeps hpossible⟩

end CAdvanced.MybufferSync.Driver
