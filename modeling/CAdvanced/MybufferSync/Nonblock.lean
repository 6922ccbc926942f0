import CAdvanced.MybufferSync.Delivery

/-!
# MybufferSync — Nonblock

A call with `O_NONBLOCK` looks at its counter once, and is told to come again when that is
zero. If it is not, the call goes on to the same `wait_event_interruptible` as everybody
else, which looks at the counter for itself. It goes straight through, as long as the counter
has not become zero in between; and only another call of its side can have brought that about.
When one has, the call sleeps all the same.
-/

namespace CAdvanced.MybufferSync.Driver

open Interleave System

variable {β ι : Type}

/-- The file is open with `O_NONBLOCK`. -/
def Frame.nonblock (f : Frame β) : Bool := (callFile f.call).nonblock

/-- No call with `O_NONBLOCK` is asleep in its wait. -/
def NeverSleeps (c : State β ι) : Prop :=
  ∀ i f, c.threads i = some f → f.nonblock = true → f.pc ≠ .wait .asleep

/-- A call with `O_NONBLOCK` that has found its counter not to be zero, and comes to its wait. -/
def comesToWait (side : Side) : Option (Frame β) → Nat
  | some f => (f.nonblock && f.side = side && f.pc = .wait .test).toNat
  | none => 0

theorem comesToWait_pos {side : Side} {t : Option (Frame β)} : 0 < comesToWait side t
    ↔ ∃ f, t = some f ∧ f.nonblock = true ∧ f.side = side ∧ f.pc = .wait .test := by
  cases t with
  | none => simp [comesToWait]
  | some f => cases h : f.nonblock <;> simp [comesToWait, h, Nat.pos_iff_ne_zero]

/-- A call subtracts all that its counter says, while a call with `O_NONBLOCK` of the same side
comes to its wait. -/
def usesUp [Fintype ι] (l : ι × Action β) (c : State β ι) : Bool :=
  match c.threads l.1 with
  | some f => f.pc = .atomicSub ∧ c.shared.counter f.side = f.copied
      ∧ 0 < total (comesToWait f.side) c.threads
  | none => false

/-! ## What a step of a call does to its wait -/

variable {i : ι} {s s' : Shared β ι} {f : Frame β} {t' : Option (Frame β)}

section Step
variable [DecidableEq ι]

/-- A step inside the wait. -/
theorem wait_of_code [Zero β] {e : Env} {p : WaitPc}
    (h : code i (.step e) s (some f) = some (s', t')) (hpc : f.pc = .wait p) :
    ∃ q r, waitEvent i (s.Possible f.side) e.signal (s.queue f.side) p = some (q, r)
      ∧ t' = some (f.goto (r.resume Pc.wait .spinLock (.ret (-erestartsys)))) := by
  obtain ⟨copy, hcode⟩ := code_step i e s f
  rw [hcode, driver, hpc] at h
  simp only [Option.map_eq_some_iff, Prod.exists] at h
  obtain ⟨q, r, hwait, h⟩ := h
  cases h
  exact ⟨q, r, hwait, rfl⟩

/-- The look at the counter that `O_NONBLOCK` asks for. -/
theorem testNonblock_of_code [Zero β] {e : Env} (h : code i (.step e) s (some f) = some (s', t'))
    (hpc : f.pc = .testNonblock) :
    s' = s ∧ t' = some (f.goto
      (if ¬ s.Possible f.side ∧ f.nonblock then .ret (-eagain) else .wait .test)) := by
  obtain ⟨copy, hcode⟩ := code_step i e s f
  rw [hcode, driver, hpc] at h
  cases h
  exact ⟨rfl, rfl⟩

omit [DecidableEq ι] in
/-- A call goes on as the call that it is. -/
theorem Effect.call {f f' : Frame β} (h : Effect i s (some f) s' (some f')) :
    f'.call = f.call := by
  cases h <;> rfl

end Step

/-! ## Over a run -/

variable [Zero β] [DecidableEq ι]

/-- A call with `O_NONBLOCK` that waits has not found anything to wait for. -/
def Straight (c : State β ι) : Prop :=
  ∀ i f p, c.threads i = some f → f.nonblock = true → f.pc = .wait p →
    p = .test ∧ c.shared.Possible f.side

/-- A call with `O_NONBLOCK` goes from its own look at the counter to that of the wait, and
from there on to its lock. -/
theorem code_straight {i : ι} {e : Env} {s s' : Shared β ι} {f f' : Frame β}
    (h : code i (.step e) s (some f) = some (s', some f')) (hnonblock : f.nonblock = true)
    (hf : ∀ p, f.pc = .wait p → p = .test ∧ s.Possible f.side) {p : WaitPc}
    (hpc' : f'.pc = .wait p) : p = .test ∧ s'.Possible f'.side := by
  have hbefore : f.pc = .testNonblock ∨ ∃ q, f.pc = .wait q := by
    cases code_effect h with
    | wait hbefore => exact hbefore
    | _ => cases hpc'
  rcases hbefore with hpc | ⟨q, hpc⟩
  · obtain ⟨rfl, ht'⟩ := testNonblock_of_code h hpc
    cases ht'
    rw [hnonblock] at hpc' ⊢
    by_cases hpossible : s'.Possible f.side
    · simp only [hpossible, not_true, false_and, if_false, Frame.goto] at hpc' ⊢
      cases hpc'
      exact ⟨rfl, hpossible⟩
    · simp [hpossible, Frame.goto] at hpc'
  · obtain ⟨rfl, hpossible⟩ := hf q hpc
    obtain ⟨q, r, hwait, ht'⟩ := wait_of_code h hpc
    cases ht'
    rw [decide_eq_true hpossible] at hwait
    cases hwait
    cases hpc'

variable [Fintype ι]

theorem Straight.step {l : ι × Action β} {c c' : State β ι} (hS : Straight c) (hI : Inv c)
    (h : (mybuffer β ι).next l c = some c') (huses : usesUp l c = false) : Straight c' := by
  have hmove : code l.1 l.2 c.shared (c.threads l.1) = some (c'.shared, c'.threads l.1) :=
    Conf.step_mover h
  intro i f' p hf' hnonblock hpc
  by_cases hi : i = l.1
  · subst hi
    rw [hf'] at hmove
    obtain ⟨i, action⟩ := l
    cases action with
    | call call =>
        cases hf : c.threads i with
        | some f => simp [hf, code] at hmove
        | none =>
            rw [hf] at hmove
            simp only [code, Option.some.injEq, Prod.mk.injEq] at hmove
            rw [← hmove.2] at hpc
            cases hpc
    | step e =>
        cases hf : c.threads i with
        | none => simp [hf, code] at hmove
        | some f =>
            rw [hf] at hmove
            have hcall : f.nonblock = f'.nonblock := by
              rw [Frame.nonblock, Frame.nonblock, (code_effect hmove).call]
            exact code_straight hmove (hcall.trans hnonblock)
              (fun q => hS i f q hf (hcall.trans hnonblock)) hpc
  · rw [Conf.step_threads_ne h hi] at hf'
    obtain ⟨htest, hpossible⟩ := hS i f' p hf' hnonblock hpc
    refine ⟨htest, (next_effect h).still_possible (hI.nonneg _) ?_ hpossible⟩
    -- what another call takes leaves something in the counter
    rintro g hg hgpc hside heq
    have hcomes : 0 < comesToWait g.side (c.threads i) :=
      comesToWait_pos.mpr ⟨f', hf', hnonblock, hside.symm, hpc.trans (congrArg Pc.wait htest)⟩
    unfold usesUp at huses
    rw [hg] at huses
    rw [← hside] at heq
    exact of_decide_eq_false huses ⟨hgpc, heq, Nat.lt_of_lt_of_le hcomes (le_total _ _ i)⟩

/-- **`O_NONBLOCK` is kept** throughout a run in which no call uses its counter up while a call
with `O_NONBLOCK` of its side comes to its wait. -/
theorem neverSleeps {ls : List (ι × Action β)} {c : State β ι} (h : (mybuffer β ι).Reaches ls c)
    (huses : (mybuffer β ι).count usesUp ls = 0) :
    (mybuffer β ι).Throughout NeverSleeps ls start := by
  intro ls' t hprefix hrun
  obtain ⟨rest, rfl⟩ := hprefix
  have hbefore : (mybuffer β ι).tally usesUp ls' start = 0 := by
    have hwhole : (mybuffer β ι).tally usesUp (ls' ++ rest) start = 0 := huses
    rw [tally_append hrun] at hwhole
    omega
  have hstart : Inv (start : State β ι) ∧ Straight (start : State β ι) :=
    ⟨inv_start, fun _ _ _ => nofun⟩
  have hend : Inv t ∧ Straight t := by
    refine exec_of_tally_eq_zero (I := fun c => Inv c ∧ Straight c) ?_ hstart hrun hbefore
    rintro l c c' ⟨hI, hS⟩ hnext hl
    exact ⟨hI.step hnext, hS.step hI hnext hl⟩
  intro i f hf hnonblock hpc
  exact absurd (hend.2 i f _ hf hnonblock hpc).1 nofun

/-- A reader with `O_NONBLOCK` gets the byte that is there. -/
theorem neverSleeps_reader :
    ∃ ls : List (Fin 2 × Action Nat), (returned ls).map Return.ret = [1, 1]
      ∧ (mybuffer Nat (Fin 2)).Throughout NeverSleeps ls start := by
  let ls : List (Fin 2 × Action Nat) :=
    (0, .call (.write ⟨false, 0⟩ [5])) :: List.replicate 10 (0, .step ⟨false, 0⟩)
      ++ (1, .call (.read ⟨true, 0⟩ 8)) :: List.replicate 10 (1, .step ⟨false, 0⟩)
  obtain ⟨c, hrun⟩ := Option.isSome_iff_exists.mp
    (show ((mybuffer Nat (Fin 2)).exec ls start).isSome by decide +kernel)
  exact ⟨ls, by decide +kernel, neverSleeps hrun (by decide +kernel)⟩

/-- One byte is there when a reader with `O_NONBLOCK` looks; another reader takes it, and
the first one sleeps. -/
theorem not_neverSleeps :
    ¬ ∀ c : State Nat (Fin 3), (mybuffer Nat (Fin 3)).Reachable c → NeverSleeps c := by
  intro hall
  let reader : Frame Nat := ⟨.read ⟨true, 0⟩ 8, .wait .asleep, 0, 0, [], 0⟩
  obtain ⟨c, hrun, hc⟩ := Option.any_eq_true _ _ |>.mp
    (show ((mybuffer Nat (Fin 3)).exec
        ((2, .call (.write ⟨false, 0⟩ [5])) :: List.replicate 10 (2, .step ⟨false, 0⟩)
          ++ [(0, .call reader.call), (0, .step ⟨false, 0⟩)]
          ++ (1, .call (.read ⟨false, 0⟩ 8)) :: List.replicate 10 (1, .step ⟨false, 0⟩)
          ++ List.replicate 3 (0, .step ⟨false, 0⟩)) start).any
        (fun c => c.threads 0 = some reader) = true by decide +kernel)
  exact hall c ⟨_, hrun⟩ 0 reader (of_decide_eq_true hc) rfl rfl

/-! ## One call of each side at a time -/

/-- **One at a time**: in a run in which no call comes while another one of its side is in
progress, none uses up what another one comes to wait for. -/
theorem not_usesUp_of_one_each {ls : List (ι × Action β)} {c : State β ι}
    (h : (mybuffer β ι).Reaches ls c) (hjoins : (mybuffer β ι).count joins ls = 0) :
    (mybuffer β ι).count usesUp ls = 0 := by
  have hbudget : (mybuffer β ι).tally usesUp ls start ≤ 0 := by
    refine tally_le_of_budget (S := mybuffer β ι) (I := fun c => Inv c ∧ OneEach c)
      (b := fun _ => 0) ?_ ⟨inv_start, oneEach_start⟩ h hjoins
    intro l c c' hc hnext hl
    refine ⟨⟨hc.1.step hnext, hc.2.step hc.1 hnext hl⟩, ?_⟩
    have hnot : usesUp l c = false := by
      unfold usesUp
      cases hf : c.threads l.1 with
      | none => rfl
      | some f =>
          refine decide_eq_false ?_
          rintro ⟨hpc, -, hcomes⟩
          obtain ⟨j, hj⟩ := exists_of_total_pos hcomes
          obtain ⟨g, hg, -, hside, htest⟩ := comesToWait_pos.mp hj
          rw [← hc.2.unique l.1 j f g hf hg hside.symm, hf] at hg
          cases hg
          rw [hpc] at htest
          cases htest
    rw [hnot]
    rfl
  exact Nat.le_zero.mp hbudget

end CAdvanced.MybufferSync.Driver
