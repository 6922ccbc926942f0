import CAdvanced.SloppyCounter.Main

/-!
# SloppyCounter — Ids

Which slot a worker increments. Worker `i` reads `thread->id` once per iteration, and
what it finds is the id that `main` has assigned last: its own as long as `main` has
not begun the next iteration of its loop, and that of a later worker afterwards.

In a run in which every worker reads its id in time, slot `i` is used by worker `i`
alone; it then holds the increments of that worker modulo `threshold`, so nothing is
left in it at the end, and `get` returns `n * MAX`, if that is an `int`.
-/

namespace CAdvanced.SloppyCounter

open Interleave System CInt

variable {n : Nat}

/-- The calls of `increment`, which a worker makes as soon as it has read
`thread->id`: who calls, and with which id. -/
def incrementCall : Tid n → State n → Option (Fin n × Fin n)
  | .main, _ => none
  | .worker i, s =>
      if (s.workers i).pc = .loadId then s.tw.id.map fun threadId => (i, threadId) else none

/-- A worker is about to read `thread->id`, and `main` has already assigned the id
of a later worker. -/
def readsLate : Tid n → State n → Bool
  | .main, _ => false
  | .worker i, s => (s.workers i).pc = .loadId && i.val + 1 < s.main.idStores

/-! ## Whatever the workers read -/

/-- What the workers have handed over to `value`: their iterations, but for those that are
still in the slots. -/
def collected (s : State n) : Int :=
  inFlightTotal (calls s) + ∑ k, ((s.workers k).i : Int) - owedTotal (calls s)

/-- The books of the program, in every run: the counter keeps its invariant, `value` is what
has been handed over, as an `int`, and `main` prints what it finds. -/
structure Books (MAX : Nat) (t : Int) (s : State n) : Prop where
  control : Control MAX s
  inv : Inv t (calls s)
  ledger : s.count.value = signed 32 (collected s)
  loaded : ∀ rc, s.main.loaded = some rc → rc = s.count.value

theorem collected_start (n : Nat) (t : Int) : collected (start n t) = 0 := by
  have howed : owedTotal (calls (start n t)) = 0 := Finset.sum_const_zero
  have hflight : inFlightTotal (calls (start n t)) = 0 := Finset.sum_const_zero
  have hcounter : ∑ k, (((start n t).workers k).i : Int) = 0 := Finset.sum_const_zero
  rw [collected, howed, hflight, hcounter]
  rfl

theorem books_start (MAX : Nat) {t : Int} (ht : IsThreshold t) : Books MAX t (start n t) where
  control := control_start MAX t
  inv := by rw [calls_start]; exact inv_init ht
  ledger := by
    rw [collected_start, signed_zero]
    rfl
  loaded := nofun

theorem main_outside (s : State n) : ((calls s).threads .main).inIncrement = false := by
  show s.main.asWorker.inIncrement = false
  cases s.main <;> rfl

/-- A step of a call moves the counter of its worker. -/
theorem CallSpec.sum {m : Move (Tid n) n} {l : Tid n} {s s' : State n} (h : CallSpec m l s s') :
    ∑ k, ((s'.workers k).i : Int)
      = ∑ k, ((s.workers k).i : Int) + (completes m (calls s)).toNat := by
  cases l with
  | main =>
      have hno : completes m (calls s) = false := by
        refine Bool.eq_false_iff.mpr fun htrue => ?_
        have hbusy := inIncrement_of_completes htrue
        rw [h.tid] at hbusy
        exact Bool.false_ne_true ((main_outside s).symm.trans hbusy)
      rw [hno]
      exact (Finset.sum_congr rfl fun k _ => by rw [h.counter, if_neg (by simp)]; rfl).trans
        (Int.add_zero _).symm
  | worker i =>
      have hsum := sum_add_of_ne (k := i) (f := fun k => ((s.workers k).i : Int))
        (g := fun k => ((s'.workers k).i : Int)) fun k hk => by
          rw [h.counter, if_neg fun heq => hk (Tid.worker.inj heq).symm]
          rfl
      have hi := h.counter i
      rw [if_pos rfl] at hi
      omega

/-- `main` has joined everybody before it calls `get`, so nobody changes `value` any more. -/
theorem Control.loaded_step {MAX : Nat} {l : Tid n} {s s' : State n} (hC : Control MAX s)
    (h : next MAX l s = some s')
    (hloaded : ∀ rc, s.main.loaded = some rc → rc = s.count.value) (rc : Int)
    (hrc : s'.main.loaded = some rc) : rc = s'.count.value := by
  cases l with
  | worker i =>
      simp only [next, Option.map_eq_some_iff] at h
      obtain ⟨⟨c, w⟩, hstep, rfl⟩ := h
      -- this worker has not been joined
      have hleft : (s.workers i).pc ≠ .finished :=
        (incrementWrapper_counts hstep (hC.counts i)).2.1
      have hrc : s.main.loaded = some rc := hrc
      have hall : n = s.main.joined := by
        cases hm : s.main with
        | get p => rfl
        | printed r => rfl
        | _ => rw [hm] at hrc; cases hrc
      exact absurd (hC.joined i (hall ▸ i.isLt)) hleft
  | main =>
      obtain ⟨count, tw, pc, workers⟩ := s
      cases pc with
      | forCreate i | forJoin i =>
          cases h
          dsimp only at hrc
          split at hrc <;> cases hrc
      | storeId i | storeCount i | create i =>
          cases h
          cases hrc
      | join i =>
          simp only [next, mainStep, Option.ite_none_right_eq_some, Option.some.injEq] at h
          obtain ⟨-, rfl⟩ := h
          cases hrc
      | printed rc => cases h
      | get p =>
          simp only [next, mainStep, Option.map_eq_some_iff] at h
          obtain ⟨⟨c, q⟩, hstep, rfl⟩ := h
          cases p with
          | lockGlobal =>
              simp only [get, Option.map_eq_some_iff, Prod.mk.injEq] at hstep
              obtain ⟨g, -, rfl, rfl⟩ := hstep
              cases hrc
          | loadValue =>
              simp only [get, Option.some.injEq, Prod.mk.injEq] at hstep
              obtain ⟨rfl, rfl⟩ := hstep
              cases hrc
              rfl
          | unlockGlobal r =>
              simp only [get, Option.some.injEq, Prod.mk.injEq] at hstep
              obtain ⟨rfl, rfl⟩ := hstep
              cases hrc
              exact hloaded rc rfl

/-- A step that is none of a call is taken outside of `increment`. -/
theorem outside_of_callStep {l : Tid n} {s : State n} (h : callStep l s = none) :
    ((calls s).threads l).inIncrement = false := by
  cases l with
  | main => exact main_outside s
  | worker i =>
      show (s.workers i).asWorker.inIncrement = false
      unfold callStep at h
      cases hpc : (s.workers i).pc with
      | increment threadId p => simp [hpc] at h
      | _ => simp [Wrapper.asWorker, hpc]

/-- **What a step hands over**: nothing, or a full slot. -/
theorem Books.collected_step {MAX : Nat} {t : Int} (ht : IsThreshold t) {l : Tid n}
    {s s' : State n} (hB : Books MAX t s) (h : next MAX l s = some s') :
    collected s' = collected s + hands l (calls s)
      ∧ s'.count.value = signed 32 (s.count.value + hands l (calls s))
      ∧ Inv t (calls s') := by
  rcases next_calls hB.control h with ⟨hsilent, hcalls, hcounter⟩ | ⟨m, -, hcall⟩
  · have hvalue : s'.count.value = s.count.value :=
      congrArg (fun c => c.shared.value) hcalls
    have hsmall : signed 32 s.count.value = s.count.value := hB.inv.small
    rw [hands_of_outside (outside_of_callStep hsilent), Int.add_zero, Int.add_zero]
    refine ⟨?_, hvalue.trans hsmall.symm, hcalls ▸ hB.inv⟩
    simp only [collected, hcalls, hcounter]
  · have haccount := hB.inv.account ht hcall.step
    have hvalue := haccount.value
    have hstored := haccount.stored
    have hflight := haccount.flight
    have hsum := hcall.sum
    rw [hcall.tid] at hvalue hstored
    refine ⟨?_, hvalue, hB.inv.step ht hcall.step⟩
    unfold collected
    omega

theorem Books.step {MAX : Nat} {t : Int} (ht : IsThreshold t) {l : Tid n} {s s' : State n}
    (hB : Books MAX t s) (h : next MAX l s = some s') : Books MAX t s' := by
  obtain ⟨hcollected, hvalue, hinv⟩ := hB.collected_step ht h
  refine ⟨hB.control.step h, hinv, ?_, hB.control.loaded_step h hB.loaded⟩
  rw [hvalue, hB.ledger, signed_add, hcollected]

theorem books_inductive {MAX : Nat} {t : Int} (ht : IsThreshold t) :
    (main n MAX t).Inductive (Books MAX t) :=
  ⟨books_start MAX ht, Books.step ht⟩

/-! ## Workers that read their own id -/

/-- Every worker uses its own slot, which then holds its increments modulo the threshold. -/
structure Own (MAX : Nat) (t : Int) (s : State n) : Prop extends Books MAX t s where
  own : ∀ k threadId p, (s.workers k).pc = .increment threadId p → threadId = k
  multiple : ∀ k, t ∣ (s.workers k).i + inFlight (point (calls s) k)
    - owed (s.count.locals k) (point (calls s) k)

theorem own_start (MAX : Nat) {t : Int} (ht : IsThreshold t) : Own MAX t (start n t) where
  toBooks := books_start MAX ht
  own := nofun
  multiple := fun _ => Int.dvd_zero t

theorem Main.created_le_idStores (m : Main n) : m.created ≤ m.idStores := by
  cases m <;> simp

theorem Control.idStores_le {MAX : Nat} {s : State n} (hC : Control MAX s) :
    s.main.idStores ≤ n := by
  have hle := hC.created_le
  cases hm : s.main with
  | storeCount i | create i => exact i.isLt
  | storeId i => exact i.isLt.le
  | forCreate i => rw [hm] at hle; exact hle
  | _ => exact Nat.le_refl n

/-- What a worker that is in time finds in `thread->id`. -/
theorem Control.id_of_inTime {MAX : Nat} {s : State n} (hC : Control MAX s) {i : Fin n}
    (hi : (s.workers i).pc = .loadId) (htime : readsLate (.worker i) s = false) :
    s.tw.id = some i := by
  have hcreated : i.val < s.main.created := by
    by_contra hnot
    have := (hC.created i).mpr (Nat.not_lt.mp hnot)
    rw [hi] at this
    cases this
  have hstores := s.main.created_le_idStores
  simp only [readsLate, hi, Bool.and_eq_false_imp, decide_eq_false_iff_not, decide_eq_true_eq]
    at htime
  have hle := htime trivial
  exact hC.assigned i (by omega)

/-- **In time**: a worker calls `increment` with its own id iff its read is not late. -/
theorem Control.readsLate_iff {MAX : Nat} {l : Tid n} {s : State n} (hC : Control MAX s) :
    readsLate l s = false ↔ ∀ x, incrementCall l s = some x → x.2 = x.1 := by
  cases l with
  | main => exact ⟨fun _ => nofun, fun _ => rfl⟩
  | worker i =>
      by_cases hi : (s.workers i).pc = .loadId
      · constructor
        · intro htime x hx
          simp only [incrementCall, if_pos hi, hC.id_of_inTime hi htime, Option.map_some,
            Option.some.injEq] at hx
          rw [← hx]
        · intro hright
          by_contra hlate
          have hlater : i.val + 1 < s.main.idStores := by
            by_contra hnot
            exact hlate (by simp only [readsLate, hnot, decide_false, Bool.and_false])
          -- the id of the later worker
          have hle := hC.idStores_le
          have hid := hC.assigned ⟨s.main.idStores - 1, by omega⟩ (by show _ - 1 + 1 = _; omega)
          have hsame := hright _ (by simp only [incrementCall, if_pos hi, hid, Option.map_some]; rfl)
          have := congrArg Fin.val hsame
          show False
          simp only at this
          omega
      · refine ⟨fun _ x hx => ?_, fun _ => ?_⟩
        · simp only [incrementCall, if_neg hi] at hx
          cases hx
        · simp only [readsLate, hi, decide_false, Bool.false_and]

/-- A step of a worker that keeps to its slot moves that slot only. -/
theorem Own.uses_iff {MAX : Nat} {t : Int} {s s' : State n} {l : Tid n} {m : Move (Tid n) n}
    (hO : Own MAX t s) (hcall : CallSpec m l s s') (k : Fin n)
    (huses : usesSlot m (calls s) k = true) : l = .worker k := by
  obtain ⟨p, hpc⟩ := usesSlot_iff.mp huses
  rw [hcall.tid] at hpc
  cases l with
  | main =>
      have hquiet : s.main.asWorker.inIncrement = false := main_outside s
      rw [Worker.inIncrement, show s.main.asWorker.pc = .increment k p from hpc] at hquiet
      cases hquiet
  | worker i =>
      have hworker : (s.workers i).asWorker.pc = .increment k p := hpc
      cases hw : (s.workers i).pc with
      | increment threadId p' =>
          simp only [Wrapper.asWorker, hw, Pc.increment.injEq] at hworker
          rw [← hworker.1, hO.own i threadId p' hw]
      | _ => simp [Wrapper.asWorker, hw] at hworker

theorem usesSlot_of_completes {m : Move (Tid n) n}
    {c : Conf (Tid n) (Counter (Tid n) n) (Worker n)} (h : completes m c = true) :
    ∃ k, usesSlot m c k = true := by
  unfold completes at h
  unfold usesSlot
  cases hpc : (c.threads m.tid).pc with
  | increment threadId p => exact ⟨threadId, decide_eq_true rfl⟩
  | _ => rw [hpc] at h; cases h

/-- A worker that reads its id in time begins a call with its own id. -/
theorem incrementWrapper_own {MAX : Nat} {s : State n} {i : Fin n} {c : Counter (Tid n) n}
    {w' : Wrapper n} (h : incrementWrapper MAX i s.count s.tw (s.workers i) = some (c, w'))
    (hid : (s.workers i).pc = .loadId → s.tw.id = some i)
    (hown : ∀ threadId p, (s.workers i).pc = .increment threadId p → threadId = i)
    (threadId : Fin n) (p : Increment) (hw' : w'.pc = .increment threadId p) :
    threadId = i := by
  cases hw : s.workers i with
  | mk pc k =>
      rw [hw] at h hid hown
      cases pc with
      | notCreated | finished => cases h
      | loop =>
          simp only [incrementWrapper, Option.some.injEq, Prod.mk.injEq] at h
          obtain ⟨-, rfl⟩ := h
          dsimp only at hw'
          split at hw' <;> cases hw'
      | loadCount =>
          simp only [incrementWrapper, Option.map_eq_some_iff, Prod.mk.injEq] at h
          obtain ⟨ptr, -, -, rfl⟩ := h
          cases hw'
      | loadId =>
          simp only [incrementWrapper, hid rfl, Option.map_some, Option.some.injEq,
            Prod.mk.injEq] at h
          obtain ⟨-, rfl⟩ := h
          cases hw'
          rfl
      | increment id q =>
          simp only [incrementWrapper, Option.map_eq_some_iff, Prod.mk.injEq] at h
          obtain ⟨⟨c₁, q'⟩, -, -, rfl⟩ := h
          cases q' with
          | goto q' => cases hw'; exact hown _ _ rfl
          | ret => cases hw'

theorem Own.own_step {MAX : Nat} {t : Int} {l : Tid n} {s s' : State n} (hO : Own MAX t s)
    (h : next MAX l s = some s') (htime : readsLate l s = false) (k threadId : Fin n)
    (p : Increment) (hk : (s'.workers k).pc = .increment threadId p) : threadId = k := by
  cases l with
  | worker i =>
      simp only [next, Option.map_eq_some_iff] at h
      obtain ⟨⟨c, w'⟩, hstep, rfl⟩ := h
      have hk : (Function.update s.workers i w' k).pc = .increment threadId p := hk
      by_cases hki : k = i
      · rw [hki, Function.update_self] at hk
        rw [hki]
        exact incrementWrapper_own hstep (fun hi => hO.control.id_of_inTime hi htime)
          (hO.own i) threadId p hk
      · rw [Function.update_of_ne hki] at hk
        exact hO.own k threadId p hk
  | main =>
      have hold : (s'.workers k).pc = .loop ∨ s'.workers k = s.workers k := by
        obtain ⟨count, tw, pc, workers⟩ := s
        cases pc with
        | create i =>
            cases h
            show (Function.update workers i ⟨.loop, 0⟩ k).pc = _
              ∨ Function.update workers i ⟨.loop, 0⟩ k = _
            by_cases hki : k = i
            · rw [hki, Function.update_self]
              exact .inl rfl
            · rw [Function.update_of_ne hki]
              exact .inr rfl
        | join i =>
            simp only [next, mainStep, Option.ite_none_right_eq_some, Option.some.injEq] at h
            obtain ⟨-, rfl⟩ := h
            exact .inr rfl
        | get p =>
            simp only [next, mainStep, Option.map_eq_some_iff] at h
            obtain ⟨r, -, rfl⟩ := h
            exact .inr rfl
        | printed rc => cases h
        | _ =>
            cases h
            exact .inr rfl
      rcases hold with hloop | hsame
      · rw [hloop] at hk
        cases hk
      · rw [hsame] at hk
        exact hO.own k threadId p hk

theorem Own.step {MAX : Nat} {t : Int} (ht : IsThreshold t) {l : Tid n} {s s' : State n}
    (hO : Own MAX t s) (h : next MAX l s = some s') (htime : readsLate l s = false) :
    Own MAX t s' := by
  refine ⟨hO.toBooks.step ht h, hO.own_step h htime, ?_⟩
  rcases next_calls hO.control h with ⟨-, hcalls, hcounter⟩ | ⟨m, -, hcall⟩
  · intro k
    have hlocals : s'.count.locals = s.count.locals :=
      congrArg (fun c => c.shared.locals) hcalls
    rw [hcalls, hlocals, hcounter]
    exact hO.multiple k
  · have haccount := hO.inv.account ht hcall.step
    intro k
    have hmultiple := hO.multiple k
    have hcounter := hcall.counter k
    cases huses : usesSlot m (calls s) k with
    | true =>
        rw [if_pos (hO.uses_iff hcall k huses)] at hcounter
        obtain ⟨hflight, howed⟩ := haccount.own k huses
        change owed (s'.count.locals k) _ = owed (s.count.locals k) _ + _
          ∨ owed (s'.count.locals k) _ + t = owed (s.count.locals k) _ + _ at howed
        rcases howed with hkept | hhanded
        · rw [show ((s'.workers k).i : Int) + inFlight (point (calls s') k)
              - owed (s'.count.locals k) (point (calls s') k)
            = (s.workers k).i + inFlight (point (calls s) k)
              - owed (s.count.locals k) (point (calls s) k) by omega]
          exact hmultiple
        · -- the slot has handed `t` increments over
          rw [show ((s'.workers k).i : Int) + inFlight (point (calls s') k)
              - owed (s'.count.locals k) (point (calls s') k)
            = (s.workers k).i + inFlight (point (calls s) k)
              - owed (s.count.locals k) (point (calls s) k) + t by omega]
          exact Int.dvd_add hmultiple (Int.dvd_refl t)
    | false =>
        obtain ⟨hlocals, hpoint⟩ := haccount.other k huses
        have hidle : l = .worker k → completes m (calls s) = false := by
          intro hl
          by_contra hends
          obtain ⟨j, hj⟩ := usesSlot_of_completes (Bool.not_eq_false _ ▸ hends)
          have hjk := Tid.worker.inj ((hO.uses_iff hcall j hj).symm.trans hl)
          rw [hjk, huses] at hj
          cases hj
        have hsame : (s'.workers k).i = (s.workers k).i := by
          rw [hcounter]
          split
          · rw [hidle ‹_›]
            rfl
          · rfl
        rw [hsame, hpoint, show s'.count.locals k = s.count.locals k from hlocals]
        exact hmultiple

/-! ## The result -/

/-- When `main` has printed, all workers are done, and nobody is in `increment`. -/
theorem Control.quiet_of_printed {MAX : Nat} {s : State n} (hC : Control MAX s) {rc : Int}
    (h : s.main = .printed rc) :
    (∀ k, (s.workers k).pc = .finished) ∧ ∀ l, ((calls s).threads l).inIncrement = false := by
  have hall : ∀ k, (s.workers k).pc = .finished := fun k => hC.joined k (by rw [h]; exact k.isLt)
  refine ⟨hall, fun l => ?_⟩
  cases l with
  | main =>
      show s.main.asWorker.inIncrement = false
      rw [h]
      rfl
  | worker k =>
      show (s.workers k).asWorker.inIncrement = false
      rw [Wrapper.asWorker, hall k]
      rfl

/-- When `main` has printed, what has been handed over and the slots are all the
increments. -/
theorem Books.collected_of_printed {MAX : Nat} {t : Int} {s : State n} (hB : Books MAX t s)
    {rc : Int} (h : s.main = .printed rc) :
    rc = signed 32 (collected s) ∧ collected s + ∑ k, s.count.locals k = (n * MAX : Nat) := by
  obtain ⟨hall, hquiet⟩ := hB.control.quiet_of_printed h
  have hcounter : ∀ k, (s.workers k).i = MAX := by
    intro k
    have hcounts := hB.control.counts k
    rwa [Wrapper.Counts, hall k] at hcounts
  have hsum : ∑ k, ((s.workers k).i : Int) = (n * MAX : Nat) := by
    simp [hcounter]
  refine ⟨(hB.loaded rc (by rw [h]; rfl)).trans hB.ledger, ?_⟩
  rw [collected, owedTotal_of_quiet hquiet, inFlightTotal_of_quiet hquiet, hsum, Int.zero_add]
  exact Int.sub_add_cancel _ _

/-- If every worker has kept to its slot, nothing is left in the slots. -/
theorem Own.result {MAX : Nat} {t : Int} (hdvd : t ∣ MAX) {s : State n}
    (hO : Own MAX t s) {rc : Int} (h : s.main = .printed rc) :
    rc = signed 32 (n * MAX : Nat) := by
  obtain ⟨hall, hquiet⟩ := hO.control.quiet_of_printed h
  obtain ⟨hrc, hsum⟩ := hO.collected_of_printed h
  have hempty : ∀ k, s.count.locals k = 0 := by
    intro k
    have hbound := hO.inv.bound k
    have hmultiple := hO.multiple k
    have hcounts := hO.control.counts k
    rw [Wrapper.Counts, hall k] at hcounts
    rw [point_of_quiet hquiet] at hbound hmultiple
    rw [hcounts] at hmultiple
    have hleft : t ∣ s.count.locals k := by
      have := Int.dvd_sub hdvd hmultiple
      simpa using this
    exact (Int.emod_eq_of_lt hbound.1 hbound.2).symm.trans (Int.emod_eq_zero_of_dvd hleft)
  rw [Finset.sum_eq_zero fun k _ => hempty k, Int.add_zero] at hsum
  rw [hrc, hsum]

/-- **The ids**: in every run, all calls of `increment` are made with the own id of
the worker, and `get` returns `n * MAX` at the end, if and only if no worker reads
`thread->id` after `main` has assigned the id of a later worker, and the number that `get`
is to return is not more than `INT_MAX`. -/
theorem own_ids_iff (n MAX : Nat) {threshold : Int} (ht : IsThreshold threshold)
    (hdvd : threshold ∣ MAX) {ls : List (Tid n)} {s : State n}
    (h : (main n MAX threshold).Reaches ls s) :
    ((∀ x ∈ (main n MAX threshold).trace incrementCall ls (start n threshold), x.2 = x.1)
        ∧ ∀ rc, s.main = .printed rc → rc = (n * MAX : Nat))
      ↔ (main n MAX threshold).count readsLate ls = 0
        ∧ ((∃ rc, s.main = .printed rc) → ((n * MAX : Nat) : Int) ≤ intMax) := by
  have hids : (main n MAX threshold).count readsLate ls = 0
      ↔ ∀ x ∈ (main n MAX threshold).trace incrementCall ls (start n threshold), x.2 = x.1 :=
    tally_eq_zero_iff (books_inductive ht) (fun hB _ => hB.control.readsLate_iff)
      (books_start MAX ht) h
  rw [← hids]
  refine and_congr_right fun htime => ?_
  have hO := exec_of_tally_eq_zero (S := main n MAX threshold) (q := readsLate)
    (fun hO hstep htime => hO.step ht hstep htime) (own_start MAX ht) h htime
  have hfits := signed_eq_self_iff (Int.natCast_nonneg (n * MAX))
  constructor
  · rintro hright ⟨rc, hrc⟩
    rw [← hfits, ← hO.result hdvd hrc]
    exact hright rc hrc
  · intro hle rc hrc
    rw [hO.result hdvd hrc, hfits]
    exact hle ⟨rc, hrc⟩

/-- Two workers that each read their id before `main` goes on. -/
theorem own_ids_iff_two :
    ∃ ls s, (main 2 2 2).Reaches ls s ∧ s.main = .printed 4
      ∧ ∀ x ∈ (main 2 2 2).trace incrementCall ls (start 2 2), x.2 = x.1 := by
  let ls : List (Tid 2) := List.replicate 4 .main ++ List.replicate 23 (.worker 0)
    ++ List.replicate 4 .main ++ List.replicate 23 (.worker 1) ++ List.replicate 9 .main
  obtain ⟨s, hrun, hs⟩ := Option.any_eq_true _ _ |>.mp
    (show ((main 2 2 2).exec ls (start 2 2)).any (fun s => s.main = .printed 4) = true by
      decide +kernel)
  have htime : (main 2 2 2).count readsLate ls = 0 := by decide +kernel
  exact ⟨ls, s, hrun, of_decide_eq_true hs,
    ((own_ids_iff 2 2 ⟨by decide, by decide⟩ (by decide) hrun).mpr
      ⟨htime, fun _ => by decide⟩).1⟩

/-- Worker 0 reads its id for its second iteration after `main` has assigned the id of
worker 1: it increments slot 1, both slots are left with one increment each, and the
program prints 2 instead of 4. -/
theorem not_own_ids :
    ¬ ∀ (n MAX : Nat) (threshold : Int), IsThreshold threshold → threshold ∣ MAX →
      ∀ ls s, (main n MAX threshold).Reaches ls s →
        (∀ x ∈ (main n MAX threshold).trace incrementCall ls (start n threshold), x.2 = x.1)
          ∧ ∀ rc, s.main = .printed rc → rc = (n * MAX : Nat) := by
  intro hall
  obtain ⟨s, hrun, hs⟩ := Option.any_eq_true _ _ |>.mp
    (show ((main 2 2 2).exec (List.replicate 4 .main ++ List.replicate 10 (.worker 0)
        ++ List.replicate 2 .main ++ List.replicate 7 (.worker 0) ++ List.replicate 2 .main
        ++ List.replicate 23 (.worker 1) ++ List.replicate 9 .main) (start 2 2)).any
      (fun s => s.main = .printed 2) = true by decide +kernel)
  have hresult := (hall 2 2 2 ⟨by decide, by decide⟩ (by decide) _ s hrun).2 2
    (of_decide_eq_true hs)
  exact absurd hresult (by decide)

end CAdvanced.SloppyCounter
