import CAdvanced.SloppyCounter.Invariant
import CAdvanced.Interleave.Termination

/-!
# SloppyCounter — Accuracy

The two ends of `Invariant` over a run: how many increments were begun, stored and
completed, and what a `get` may return.

What has been handed over to `value` is a number that only grows (`handedOver`); `value` is
this number as an `int`. So `value` is right up to the first `value += local` whose sum is
above `INT_MAX`, and never again after it.
-/

namespace CAdvanced.SloppyCounter

open Interleave System CInt

variable {ι : Type} {n : Nat} [DecidableEq ι]

/-! ## Accounts over a run -/

/-- The step stores a sum in `value` that is too large for an `int`. -/
def overflows (m : Move ι n) (c : Conf ι (Counter ι n) (Worker n)) : Bool :=
  match (c.threads m.tid).pc with
  | .increment threadId (.storeValue _) => intMax < c.shared.value + c.shared.locals threadId
  | _ => false

omit [DecidableEq ι] in
/-- No other step can be taken for one of these: `value` itself is an `int`. -/
theorem Inv.overflows_eq {t : Int} {c : Conf ι (Counter ι n) (Worker n)} (hI : Inv t c)
    (m : Move ι n) : overflows m c = decide (intMax < c.shared.value + hands m.tid c) := by
  have hsmall : ¬ intMax < c.shared.value + 0 := by
    have := signed_le_intMax c.shared.value
    rw [hI.small] at this
    omega
  unfold overflows hands
  generalize c.threads m.tid = w
  obtain ⟨pc, got⟩ := w
  cases pc with
  | increment threadId p =>
      cases p with
      | storeValue r => rfl
      | _ => exact (decide_eq_false hsmall).symm
  | _ => exact (decide_eq_false hsmall).symm

/-- The increments that a run has handed over to `value`. -/
def handedOver (t : Int) (ls : List (Move ι n)) (c : Conf ι (Counter ι n) (Worker n)) : Int :=
  (program ι n t).count stores ls - owedTotal c

/-- What a run has handed over, and what `value` shows of it. -/
structure Handed (t : Int) (ls : List (Move ι n)) (c : Conf ι (Counter ι n) (Worker n)) :
    Prop where
  value : c.shared.value = signed 32 (handedOver t ls c)
  nonneg : 0 ≤ handedOver t ls c
  fits : (program ι n t).count overflows ls = 0 ↔ handedOver t ls c ≤ intMax

theorem handed_init {t : Int} : Handed t [] (initial ι n t) := by
  have hzero : handedOver t [] (initial ι n t) = 0 := by
    have howed : owedTotal (initial ι n t) = 0 := Finset.sum_const_zero
    rw [handedOver, howed]
    rfl
  refine ⟨?_, by rw [hzero], ?_⟩
  · rw [hzero]
    rfl
  · rw [hzero]
    exact iff_of_true rfl (by decide)

theorem Handed.step {t : Int} (ht : IsThreshold t) {ls : List (Move ι n)} {m : Move ι n}
    {c c' : Conf ι (Counter ι n) (Worker n)} (hrun : (program ι n t).Reaches ls c)
    (hH : Handed t ls c) (h : (program ι n t).next m c = some c') : Handed t (ls ++ [m]) c' := by
  have hI := (inv_inductive ht).reachable hrun.reachable
  have haccount := hI.account ht h
  have hstored := haccount.stored
  have hnext : handedOver t (ls ++ [m]) c' = handedOver t ls c + hands m.tid c := by
    unfold handedOver
    rw [count_concat hrun h]
    push_cast
    omega
  have hgrows : 0 ≤ hands m.tid c := by
    rcases haccount.added with hnone | hfull
    · omega
    · have := ht.1
      omega
  refine ⟨?_, by have := hH.nonneg; omega, ?_⟩
  · rw [haccount.value, hH.value, signed_add, hnext]
  · rw [count_concat hrun h, Nat.add_eq_zero_iff, hH.fits, Bool.toNat_eq_zero, hI.overflows_eq,
      decide_eq_false_iff_not, hnext]
    -- as long as nothing has been too large, `value` is what has been handed over
    have hsame := (signed_eq_self_iff hH.nonneg).mpr
    rw [← hH.value] at hsame
    constructor
    · rintro ⟨hfits, hsum⟩
      rw [hsame hfits] at hsum
      omega
    · intro hfits
      have hbefore : handedOver t ls c ≤ intMax := by omega
      rw [hsame hbefore]
      exact ⟨hbefore, by omega⟩

theorem handed {t : Int} (ht : IsThreshold t) {ls : List (Move ι n)}
    {c : Conf ι (Counter ι n) (Worker n)} (h : (program ι n t).Reaches ls c) : Handed t ls c :=
  Reaches.induction handed_init (fun hrun hH hnext => hH.step ht hrun hnext) h

/-- Of the stored increments, those that are not completed are in flight. -/
theorem stores_eq {t : Int} (ht : IsThreshold t) {ls : List (Move ι n)}
    {c : Conf ι (Counter ι n) (Worker n)} (h : (program ι n t).Reaches ls c) :
    ((program ι n t).count stores ls : Int)
      = (program ι n t).count completes ls + inFlightTotal c := by
  have hledger := exec_ledger (inv_inductive ht) (p := stores) (q := completes)
    (g := inFlightTotal) (fun hI hstep => (hI.account ht hstep).flight) (inv_inductive ht).init h
  have hzero : inFlightTotal (program ι n t).init = 0 := Finset.sum_const_zero
  rw [hzero] at hledger
  unfold count
  omega

/-- A thread enters the first half of `increment` by beginning a call, and leaves it
by the store. -/
theorem pending_step [Fintype ι] {m : Move ι n} {c c' : Conf ι (Counter ι n) (Worker n)}
    (h : c.step (worker m.tid m.op) m.tid = some c') :
    (total Worker.pending c'.threads : Int) + (stores m c).toNat
      = total Worker.pending c.threads + (begins m c).toNat := by
  have htotal := Conf.total_step Worker.pending h
  have hmover : (c'.threads m.tid).pending + (stores m c).toNat
      = (c.threads m.tid).pending + (begins m c).toNat := by
    have hmove := Conf.step_mover h
    unfold stores begins
    generalize c.threads m.tid = w at hmove ⊢
    obtain ⟨pc, got⟩ := w
    cases pc with
    | idle =>
        simp only [worker, Option.some.injEq, Prod.mk.injEq] at hmove
        rw [← hmove.2]
        cases m.op <;> simp
    | increment threadId p =>
        simp only [worker, Option.map_eq_some_iff, Prod.exists, Prod.mk.injEq] at hmove
        obtain ⟨c₁, q, hmove, -, hw'⟩ := hmove
        have hspec := (increment_spec hmove).pending
        rw [← hw']
        cases q <;> simpa using hspec
    | get p =>
        simp only [worker, Option.map_eq_some_iff, Prod.exists, Prod.mk.injEq] at hmove
        obtain ⟨c₁, q, -, -, hw'⟩ := hmove
        rw [← hw']
        cases q <;> rfl
  omega

/-- Every stored increment was begun. -/
theorem stores_le [Fintype ι] {t : Int} {ls : List (Move ι n)}
    {c : Conf ι (Counter ι n) (Worker n)} (h : (program ι n t).Reaches ls c) :
    (program ι n t).count stores ls ≤ (program ι n t).count begins ls := by
  have hledger := exec_ledger (inductive_true (S := program ι n t))
    (p := begins) (q := stores) (g := fun c => (total Worker.pending c.threads : Int))
    (fun _ hstep => pending_step hstep) trivial h
  have hzero : total Worker.pending (program ι n t).init.threads = 0 := total_eq_zero fun _ => rfl
  rw [hzero] at hledger
  unfold count
  omega

/-! ## What `get` returns -/

omit [DecidableEq ι] in
/-- The step that leads to the return of `rc` is the load of `value`. -/
theorem worker_load {i : ι} {op : Op n} {c c' : Counter ι n} {w w' : Worker n} {rc : Int}
    (h : worker i op c w = some (c', w')) (hpc : w'.pc = .get (.unlockGlobal rc)) :
    w.pc = .get .loadValue ∧ c.value = rc := by
  obtain ⟨pc, got⟩ := w
  cases pc with
  | idle =>
      simp only [worker, Option.some.injEq, Prod.mk.injEq] at h
      rw [← h.2] at hpc
      cases op <;> cases hpc
  | increment threadId p =>
      simp only [worker, Option.map_eq_some_iff, Prod.exists, Prod.mk.injEq] at h
      obtain ⟨c₁, q, -, -, rfl⟩ := h
      cases q <;> cases hpc
  | get p =>
      simp only [worker, Option.map_eq_some_iff, Prod.exists, Prod.mk.injEq] at h
      obtain ⟨c₁, q, h, -, rfl⟩ := h
      cases p with
      | lockGlobal =>
          simp only [get, Option.map_eq_some_iff, Prod.mk.injEq] at h
          obtain ⟨l, -, -, rfl⟩ := h
          cases hpc
      | loadValue =>
          simp only [get, Option.some.injEq, Prod.mk.injEq] at h
          obtain ⟨-, rfl⟩ := h
          cases hpc
          exact ⟨rfl, rfl⟩
      | unlockGlobal r =>
          simp only [get, Option.some.injEq, Prod.mk.injEq] at h
          obtain ⟨-, rfl⟩ := h
          cases hpc

omit [DecidableEq ι] in
/-- The value that a call of `get` returns is the one it has held since its load. -/
theorem worker_return {i : ι} {op : Op n} {c c' : Counter ι n} {w w' : Worker n} {rc : Int}
    (h : worker i op c w = some (c', w')) (hgot : w'.got = w.got ++ [rc]) :
    w.pc = .get (.unlockGlobal rc) := by
  have hne : w.got ≠ w.got ++ [rc] := by simp
  obtain ⟨pc, got⟩ := w
  cases pc with
  | idle =>
      simp only [worker, Option.some.injEq, Prod.mk.injEq] at h
      rw [← h.2] at hgot
      cases op <;> exact absurd hgot hne
  | increment threadId p =>
      simp only [worker, Option.map_eq_some_iff, Prod.exists, Prod.mk.injEq] at h
      obtain ⟨c₁, q, -, -, rfl⟩ := h
      exact absurd hgot hne
  | get p =>
      simp only [worker, Option.map_eq_some_iff, Prod.exists, Prod.mk.injEq] at h
      obtain ⟨c₁, q, h, -, rfl⟩ := h
      cases p with
      | lockGlobal =>
          simp only [get, Option.map_eq_some_iff, Prod.mk.injEq] at h
          obtain ⟨l, -, -, rfl⟩ := h
          exact absurd hgot hne
      | loadValue =>
          simp only [get, Option.some.injEq, Prod.mk.injEq] at h
          obtain ⟨-, rfl⟩ := h
          exact absurd hgot hne
      | unlockGlobal r =>
          simp only [get, Option.some.injEq, Prod.mk.injEq] at h
          obtain ⟨-, rfl⟩ := h
          cases List.append_cancel_left hgot
          rfl

/-- Between its load and its return `get` holds the value it loaded, whatever the
other threads do meanwhile. -/
theorem exists_load {t : Int} {i : ι} {rc : Int} {ls : List (Move ι n)}
    {c : Conf ι (Counter ι n) (Worker n)} (h : (program ι n t).Reaches ls c)
    (hpc : (c.threads i).pc = .get (.unlockGlobal rc)) :
    ∃ pre m post c₁, ls = pre ++ m :: post ∧ (program ι n t).Reaches pre c₁
      ∧ m.tid = i ∧ (c₁.threads i).pc = .get .loadValue ∧ c₁.shared.value = rc
      ∧ ∀ m' ∈ post, m'.tid ≠ i := by
  induction ls using List.reverseRecOn generalizing c with
  | nil =>
      cases h
      cases hpc
  | append_singleton ls m ih =>
      obtain ⟨c₁, hrun, hlast⟩ := exec_append_eq_some.mp h
      have hstep : c₁.step (worker m.tid m.op) m.tid = some c := exec_singleton.symm.trans hlast
      by_cases hm : m.tid = i
      · -- the last step is the load
        have hmove := Conf.step_mover hstep
        rw [hm] at hmove
        obtain ⟨hload, hvalue⟩ := worker_load hmove hpc
        exact ⟨ls, m, [], c₁, rfl, hrun, hm, hload, hvalue, nofun⟩
      · rw [Conf.step_threads_ne hstep (Ne.symm hm)] at hpc
        obtain ⟨pre, m₀, post, c₀, rfl, hpre, hm₀, hload, hvalue, hpost⟩ := ih hrun hpc
        refine ⟨pre, m₀, post ++ [m], c₀, by simp, hpre, hm₀, hload, hvalue, ?_⟩
        intro m' hm'
        rcases List.mem_append.mp hm' with hin | hin
        · exact hpost m' hin
        · rw [List.mem_singleton.mp hin]
          exact hm

/-! ## The bounds -/

/-- At any moment everything has been handed over but what the slots may keep back, and
nothing that was not begun. -/
theorem handedOver_bounds [Fintype ι] {t : Int} (ht : IsThreshold t) {ls : List (Move ι n)}
    {c : Conf ι (Counter ι n) (Worker n)} (h : (program ι n t).Reaches ls c) :
    (program ι n t).count completes ls - n * (t - 1) ≤ handedOver t ls c
      ∧ handedOver t ls c ≤ (program ι n t).count begins ls := by
  have hI := (inv_inductive ht).reachable h.reachable
  have hflight := stores_eq ht h
  have hbegun := stores_le h
  have hnonneg : 0 ≤ owedTotal c := Finset.sum_nonneg fun k _ => (hI.bound k).owed_nonneg ht.1
  have hle : owedTotal c ≤ n * (t - 1) + inFlightTotal c := by
    calc owedTotal c ≤ ∑ k, (t - 1 + inFlight (point c k)) :=
          Finset.sum_le_sum fun k _ => (hI.bound k).owed_le ht.1
      _ = n * (t - 1) + inFlightTotal c := by
          rw [Finset.sum_add_distrib, Finset.sum_const, Finset.card_univ, Fintype.card_fin,
            Int.nsmul_eq_mul]
          rfl
  unfold handedOver
  constructor <;> omega

/-- No `int` is too small before more than `INT_MAX` increments have begun. -/
theorem overflows_eq_zero [Fintype ι] {t : Int} (ht : IsThreshold t) {ls : List (Move ι n)}
    {c : Conf ι (Counter ι n) (Worker n)} (h : (program ι n t).Reaches ls c)
    (hfew : ((program ι n t).count begins ls : Int) ≤ intMax) :
    (program ι n t).count overflows ls = 0 :=
  (handed ht h).fits.mpr ((handedOver_bounds ht h).2.trans hfew)

/-- As long as no sum was too large, `value` is what has been handed over. -/
theorem value_eq {t : Int} (ht : IsThreshold t) {ls : List (Move ι n)}
    {c : Conf ι (Counter ι n) (Worker n)} (h : (program ι n t).Reaches ls c) :
    c.shared.value = handedOver t ls c ↔ (program ι n t).count overflows ls = 0 := by
  have hH := handed ht h
  rw [hH.fits, hH.value]
  exact signed_eq_self_iff hH.nonneg

/-- While no call of `increment` is in progress, what has been handed over and the slots are
the completed increments. -/
theorem handedOver_of_quiet {t : Int} (ht : IsThreshold t) {ls : List (Move ι n)}
    {c : Conf ι (Counter ι n) (Worker n)} (h : (program ι n t).Reaches ls c)
    (hquiet : ∀ i, (c.threads i).inIncrement = false) :
    handedOver t ls c + ∑ k, c.shared.locals k = (program ι n t).count completes ls
      ∧ ∀ k, 0 ≤ c.shared.locals k ∧ c.shared.locals k < t := by
  have hI := (inv_inductive ht).reachable h.reachable
  constructor
  · have := stores_eq ht h
    have := owedTotal_of_quiet hquiet
    have := inFlightTotal_of_quiet hquiet
    unfold handedOver
    omega
  · intro k
    have hbound := hI.bound k
    rw [point_of_quiet hquiet] at hbound
    exact hbound

/-- **Accuracy**: in a run in which no `value += local` has a sum above `INT_MAX`, a `get`
that returns `rc` loaded it at a moment at which at most `n * (threshold - 1)` more increments
were completed, and at least `rc` were begun. While no increment is in progress, every slot is
below the threshold, and `value` and the slots add up to the completed increments exactly if
there was no such sum. There is none before more than `INT_MAX` increments have begun. -/
theorem sloppy_counter_accurate [Fintype ι] {threshold : Int} (ht : IsThreshold threshold) :
    (∀ ls m rc (c c' : Conf ι (Counter ι n) (Worker n)),
      (program ι n threshold).Reaches ls c → (program ι n threshold).next m c = some c' →
      (c'.threads m.tid).got = (c.threads m.tid).got ++ [rc] →
      (program ι n threshold).count overflows ls = 0 →
      ∃ pre load post c₁, ls = pre ++ load :: post ∧ (program ι n threshold).Reaches pre c₁
        ∧ load.tid = m.tid ∧ (c₁.threads m.tid).pc = .get .loadValue
        ∧ (∀ m' ∈ post, m'.tid ≠ m.tid)
        ∧ (program ι n threshold).count completes pre - n * (threshold - 1) ≤ rc
        ∧ rc ≤ (program ι n threshold).count begins pre)
      ∧ (∀ ls (c : Conf ι (Counter ι n) (Worker n)), (program ι n threshold).Reaches ls c →
        (∀ i, (c.threads i).inIncrement = false) →
        (c.shared.value + ∑ k, c.shared.locals k = (program ι n threshold).count completes ls
            ↔ (program ι n threshold).count overflows ls = 0)
          ∧ ∀ k, 0 ≤ c.shared.locals k ∧ c.shared.locals k < threshold)
      ∧ ∀ ls (c : Conf ι (Counter ι n) (Worker n)), (program ι n threshold).Reaches ls c →
        ((program ι n threshold).count begins ls : Int) ≤ intMax →
        (program ι n threshold).count overflows ls = 0 := by
  refine ⟨?_, fun ls c h hquiet => ?_, fun ls c h hfew => overflows_eq_zero ht h hfew⟩
  · intro ls m rc c c' h hnext hgot hfits
    have hpc := worker_return (Conf.step_mover hnext) hgot
    obtain ⟨pre, load, post, c₁, hls, hpre, hload, hat, hvalue, hpost⟩ := exists_load h hpc
    have hbefore : (program ι n threshold).count overflows pre = 0 := by
      rw [hls, count, tally_append hpre, Nat.add_eq_zero_iff] at hfits
      exact hfits.1
    have hbounds := handedOver_bounds ht hpre
    rw [← (value_eq ht hpre).mpr hbefore, hvalue] at hbounds
    exact ⟨pre, load, post, c₁, hls, hpre, hload, hat, hpost, hbounds⟩
  · obtain ⟨hsum, hlocals⟩ := handedOver_of_quiet ht h hquiet
    refine ⟨?_, hlocals⟩
    rw [← value_eq ht h]
    constructor <;> intro heq <;> omega

/-- One slot, threshold two: thread 0 completes an increment, and the `get` of
thread 1 returns 0, one less. -/
theorem sloppy_counter_accurate_two :
    ∃ pre load post, List.replicate 6 ⟨0, .increment 0⟩ ++ List.replicate 3 ⟨1, .get⟩
        = pre ++ load :: post
      ∧ ((program (Fin 2) 1 2).count completes pre : Int) - (1 : Nat) * (2 - 1) ≤ 0
      ∧ (0 : Int) ≤ (program (Fin 2) 1 2).count begins pre := by
  obtain ⟨c, hrun, hc⟩ := Option.any_eq_true _ _ |>.mp
    (show (((program (Fin 2) 1 2).exec
        (List.replicate 6 ⟨0, .increment 0⟩ ++ List.replicate 3 ⟨1, .get⟩)
        (initial (Fin 2) 1 2)).any fun c =>
      ((program (Fin 2) 1 2).next ⟨1, .get⟩ c).any fun c' =>
        (c'.threads 1).got = (c.threads 1).got ++ [0]) = true by decide +kernel)
  obtain ⟨c', hnext, hgot⟩ := Option.any_eq_true _ _ |>.mp hc
  obtain ⟨pre, load, post, _, hls, _, _, _, _, hlow, hhigh⟩ :=
    (sloppy_counter_accurate ⟨by decide, by decide⟩).1 _ ⟨1, .get⟩ 0 c c' hrun hnext
      (of_decide_eq_true hgot) (by decide +kernel)
  exact ⟨pre, load, post, hls, hlow, hhigh⟩

/-! ## One thread that counts too far -/

/-- Nobody does anything, and `k` increments have been handed over from the only slot. -/
def counted (k : Nat) : Conf (Fin 1) (Counter (Fin 1) 1) (Worker 1) :=
  ⟨{ init (Fin 1) 1 1 with value := signed 32 k }, fun _ => ⟨.idle, []⟩⟩

/-- The call of `increment` of the only thread. -/
def call : Move (Fin 1) 1 := ⟨0, .increment 0⟩

theorem update_zero {α : Type} (f : Fin 1 → α) (a : α) : Function.update f 0 a = fun _ => a := by
  funext i
  rw [Subsingleton.elim i 0, Function.update_self]

/-- With threshold 1 every increment is handed over at once. -/
theorem exec_call (k : Nat) :
    (program (Fin 1) 1 1).exec (List.replicate 12 call) (counted k) = some (counted (k + 1))
      ∧ (program (Fin 1) 1 1).tally completes (List.replicate 12 call) (counted k) = 1 := by
  have hone : signed 32 1 = 1 := by decide
  have hnext : signed 32 (signed 32 (k : Int) + 1) = signed 32 (k + 1) := signed_add _ 1
  simp [exec, tally, program, Conf.step, worker, increment, counted, call, init, update_zero,
    Mutex.lock, Mutex.unlock, List.replicate, completes, hone, hnext]

theorem reaches_counted (k : Nat) : ∃ ls, (program (Fin 1) 1 1).Reaches ls (counted k)
    ∧ (program (Fin 1) 1 1).count completes ls = k := by
  induction k with
  | zero => exact ⟨[], rfl, rfl⟩
  | succ k ih =>
      obtain ⟨ls, hrun, hcount⟩ := ih
      obtain ⟨hexec, htally⟩ := exec_call k
      refine ⟨ls ++ List.replicate 12 call, exec_append_eq_some.mpr ⟨_, hrun, hexec⟩, ?_⟩
      rw [count, tally_append hrun, htally, ← count, hcount]

/-- One slot, threshold one, and one thread that increments 2147483648 times: nobody is in
`increment`, nothing is left in the slot, and `value` is negative. -/
theorem sum_overflows : ∃ ls c, (program (Fin 1) 1 1).Reaches ls c
    ∧ (∀ i, (c.threads i).inIncrement = false)
    ∧ (program (Fin 1) 1 1).count completes ls = 2147483648
    ∧ c.shared.value + ∑ k, c.shared.locals k = -2147483648 := by
  obtain ⟨ls, hrun, hcount⟩ := reaches_counted 2147483648
  refine ⟨ls, _, hrun, fun _ => rfl, hcount, ?_⟩
  decide +kernel

end CAdvanced.SloppyCounter
