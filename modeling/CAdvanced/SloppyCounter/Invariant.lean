import CAdvanced.SloppyCounter.Model

/-!
# SloppyCounter — Invariant

A slot is used by one thread at a time, the holder of its lock, so what the slot
still owes to `value` is a function of its contents and of where the holder
stands (`Counter.owed`): all of it, or nothing between the store of `value` and the
reset, when the same increments are in both places. Then

  what has been handed over + what the slots owe = the increments stored so far,

and a slot owes at most `threshold - 1` more than its holder has in flight. A slot never
leaves the range of `threshold`, which is an `int`; `value` is what has been handed over, as
long as that fits in an `int`.
-/

namespace CAdvanced.SloppyCounter

open Interleave System CInt

/-- What `init` is called with: an `int` that is at least 1. -/
def IsThreshold (t : Int) : Prop := 1 ≤ t ∧ t ≤ intMax

/-! ## Where the holder of a slot stands -/

/-- The program point as the slot sees it: nobody, before the lock is taken. -/
@[simp] def Increment.held : Increment → Option Increment
  | .lockLocal => none
  | p => some p

/-- Inside the section of `globallock`. -/
@[simp] def Increment.inGlobal : Increment → Bool
  | .loadValue | .addLocal _ | .storeValue _ | .unlockGlobal => true
  | _ => false

@[simp] def Get.inGlobal : Get → Bool
  | .lockGlobal => false
  | _ => true

/-- What the slot with the contents `l` has still to hand over. -/
@[simp] def owed (l : Int) : Option Increment → Int
  | some .unlockGlobal | some .storeZero => 0
  | _ => l

/-- The increment that the holder has stored and not completed. -/
@[simp] def inFlight : Option Increment → Int
  | none | some .lockLocal | some .loadLocal | some (.storeLocal _) => 0
  | _ => 1

/-- The contents of a slot: below the threshold, but for the time between the
store and the reset. -/
@[simp] def Bound (threshold l : Int) : Option Increment → Prop
  | some .testLocal => 0 ≤ l ∧ l ≤ threshold
  | some .lockGlobal | some .loadValue | some (.addLocal _) | some (.storeValue _)
  | some .unlockGlobal | some .storeZero => l = threshold
  | _ => 0 ≤ l ∧ l < threshold

theorem Bound.owed_nonneg {threshold l : Int} {p : Option Increment} (ht : 1 ≤ threshold)
    (h : Bound threshold l p) : 0 ≤ owed l p := by
  match p with
  | none => exact h.1
  | some p => cases p <;> simp at h ⊢ <;> omega

theorem Bound.owed_le {threshold l : Int} {p : Option Increment} (ht : 1 ≤ threshold)
    (h : Bound threshold l p) : owed l p ≤ threshold - 1 + inFlight p := by
  match p with
  | none => simp at h ⊢; omega
  | some p => cases p <;> simp at h ⊢ <;> omega

/-- The store of an increment. -/
@[simp] def Increment.stores : Increment → Bool
  | .storeLocal _ => true
  | _ => false

/-- What the step adds to `value`, with `l` in the slot. -/
@[simp] def Increment.hands (l : Int) : Increment → Int
  | .storeValue _ => l
  | _ => 0

/-- The last step of `increment`. -/
@[simp] def Increment.returns : Increment → Bool
  | .unlockLocal => true
  | _ => false

/-- Before the store of the increment. -/
@[simp] def Increment.pending : Increment → Nat
  | .lockLocal | .loadLocal | .storeLocal _ => 1
  | _ => 0

variable {ι : Type} {n : Nat}

/-- Loaded values that are about to be used are still current. -/
@[simp] def Increment.RegOk (threadId : Fin n) (c : Counter ι n) : Increment → Prop
  | .storeLocal r => r = c.locals threadId
  | .addLocal v => v = c.value
  | .storeValue r => r = signed 32 (c.value + c.locals threadId)
  | _ => True

/-! ## What one step can do -/

/-- One step of `increment` from `p` with the counter `c` to `q` with `c'`. -/
structure IncrementSpec (i : ι) (threadId : Fin n) (c c' : Counter ι n) (p : Increment)
    (q : Ctl Increment) : Prop where
  threshold : c'.threshold = c.threshold
  locals : ∀ k, k ≠ threadId → c'.locals k = c.locals k
  locallock : ∀ k, k ≠ threadId → c'.locallock k = c.locallock k
  slot : Mutex.Moves i (c.locallock threadId) p.held.isSome (c'.locallock threadId)
    (q.resume Increment.held none).isSome
  global : Mutex.Moves i c.globallock p.inGlobal c'.globallock
    (q.resume Increment.inGlobal false)
  free : p.held = none → c.locallock threadId = none
  freed : q.resume Increment.held none = none → c'.locallock threadId = none
  frameLocal : p.held = none → c'.locals threadId = c.locals threadId
  frameValue : p.inGlobal = false → c'.value = c.value
  reg : p.RegOk threadId c → q.resume (Increment.RegOk threadId c') True
  value : p.RegOk threadId c → signed 32 c.value = c.value →
    c'.value = signed 32 (c.value + p.hands (c.locals threadId))
  hands : Bound c.threshold (c.locals threadId) p.held →
    p.hands (c.locals threadId) = 0 ∨ p.hands (c.locals threadId) = c.threshold
  owed : p.RegOk threadId c → c.threshold ≤ intMax →
    Bound c.threshold (c.locals threadId) p.held →
    owed (c'.locals threadId) (q.resume Increment.held none) + p.hands (c.locals threadId)
      = owed (c.locals threadId) p.held + p.stores.toNat
  flight : inFlight (q.resume Increment.held none) + p.returns.toNat
    = inFlight p.held + p.stores.toNat
  bound : p.RegOk threadId c → 1 ≤ c.threshold → c.threshold ≤ intMax →
    Bound c.threshold (c.locals threadId) p.held →
    Bound c.threshold (c'.locals threadId) (q.resume Increment.held none)
  pending : q.resume Increment.pending 0 + p.stores.toNat = p.pending
  ends : q.resume (fun _ => 0) 1 = p.returns.toNat

/-- One more fits in a slot that is below the threshold. -/
theorem signed_succ_of_lt {l t : Int} (hl : 0 ≤ l) (hlt : l < t) (ht : t ≤ intMax) :
    signed 32 (l + 1) = l + 1 :=
  (signed_eq_self_iff (by omega)).mpr (by omega)

theorem increment_spec {i : ι} {threadId : Fin n} {c c' : Counter ι n} {p : Increment}
    {q : Ctl Increment} (h : increment i threadId c p = some (c', q)) :
    IncrementSpec i threadId c c' p q := by
  cases p with
  | lockLocal =>
      simp only [increment, Option.map_eq_some_iff, Mutex.lock_eq_some, Prod.mk.injEq] at h
      obtain ⟨m, ⟨hfree, rfl⟩, rfl, rfl⟩ := h
      constructor
      case slot => simpa [hfree] using Mutex.Moves.lock
      case global => exact .keep
      all_goals simp_all
  | lockGlobal =>
      simp only [increment, Option.map_eq_some_iff, Mutex.lock_eq_some, Prod.mk.injEq] at h
      obtain ⟨m, ⟨hfree, rfl⟩, rfl, rfl⟩ := h
      constructor
      case slot => exact .keep
      case global => simpa [hfree] using Mutex.Moves.lock
      all_goals simp_all
  | testLocal =>
      simp only [increment, Option.some.injEq, Prod.mk.injEq] at h
      obtain ⟨rfl, rfl⟩ := h
      split
      all_goals
        constructor
        case slot => exact .keep
        case global => exact .keep
        all_goals simp_all
        all_goals omega
  | unlockLocal =>
      simp only [increment, Option.some.injEq, Prod.mk.injEq] at h
      obtain ⟨rfl, rfl⟩ := h
      constructor
      case slot => simpa using Mutex.Moves.unlock
      case global => exact .keep
      all_goals simp_all
  | unlockGlobal =>
      simp only [increment, Option.some.injEq, Prod.mk.injEq] at h
      obtain ⟨rfl, rfl⟩ := h
      constructor
      case slot => exact .keep
      case global => exact .unlock
      all_goals simp_all
  | storeLocal r =>
      simp only [increment, Option.some.injEq, Prod.mk.injEq] at h
      obtain ⟨rfl, rfl⟩ := h
      constructor
      case slot => exact .keep
      case global => exact .keep
      case owed =>
        rintro rfl hint ⟨hl, hlt⟩
        simp [signed_succ_of_lt hl hlt hint]
      case bound =>
        rintro rfl - hint ⟨hl, hlt⟩
        simp only [Function.update_self, signed_succ_of_lt hl hlt hint, Ctl.resume_goto,
          Increment.held, Bound]
        omega
      all_goals simp_all
  | _ =>
      simp only [increment, Option.some.injEq, Prod.mk.injEq] at h
      obtain ⟨rfl, rfl⟩ := h
      constructor
      case slot => exact .keep
      case global => exact .keep
      all_goals simp_all
      all_goals omega

/-! ## The threads -/

@[simp] def Worker.inGlobal (w : Worker n) : Bool :=
  match w.pc with
  | .idle => false
  | .increment _ p => p.inGlobal
  | .get p => p.inGlobal

/-- The thread's program point, if it holds the lock of slot `k`. -/
@[simp] def Worker.point (k : Fin n) (w : Worker n) : Option Increment :=
  match w.pc with
  | .increment threadId p => if threadId = k then p.held else none
  | _ => none

@[simp] def Worker.RegOk (c : Counter ι n) (w : Worker n) : Prop :=
  match w.pc with
  | .increment threadId p => p.RegOk threadId c
  | _ => True

/-- What the thread's next step adds to `value`. -/
@[simp] def Worker.hands (c : Counter ι n) (w : Worker n) : Int :=
  match w.pc with
  | .increment threadId p => p.hands (c.locals threadId)
  | _ => 0

/-- In `increment`, and before its store. -/
@[simp] def Worker.pending (w : Worker n) : Nat :=
  match w.pc with
  | .increment _ p => p.pending
  | _ => 0

/-- In a call of `increment`. -/
@[simp] def Worker.inIncrement (w : Worker n) : Bool :=
  match w.pc with
  | .increment _ _ => true
  | _ => false

/-- A step of a thread that is not in `increment` or only begins it: it does not
touch the slots or `value`. -/
structure QuietSpec (i : ι) (c c' : Counter ι n) (w w' : Worker n) : Prop where
  threshold : c'.threshold = c.threshold
  locals : c'.locals = c.locals
  locallock : c'.locallock = c.locallock
  value : c'.value = c.value
  global : Mutex.Moves i c.globallock w.inGlobal c'.globallock w'.inGlobal
  outside : w.inIncrement = false
  point : ∀ k, w'.point k = none
  reg : w'.RegOk c'

theorem QuietSpec.point_old {i : ι} {c c' : Counter ι n} {w w' : Worker n}
    (h : QuietSpec i c c' w w') (k : Fin n) : w.point k = none := by
  have hout := h.outside
  obtain ⟨pc, got⟩ := w
  cases pc <;> simp_all

/-- **A step of a thread**: one step of its `increment`, or a quiet one. -/
theorem worker_cases {i : ι} {op : Op n} {c c' : Counter ι n} {w w' : Worker n}
    (h : worker i op c w = some (c', w')) :
    (∃ threadId p q, w.pc = .increment threadId p
        ∧ w'.pc = q.resume (.increment threadId) .idle
        ∧ IncrementSpec i threadId c c' p q)
      ∨ QuietSpec i c c' w w' := by
  obtain ⟨pc, got⟩ := w
  cases pc with
  | idle =>
      simp only [worker, Option.some.injEq, Prod.mk.injEq] at h
      obtain ⟨rfl, rfl⟩ := h
      refine .inr ⟨rfl, rfl, rfl, rfl, ?_, rfl, ?_, ?_⟩
      · cases op <;> exact .keep
      · intro k
        cases op <;> simp
      · cases op <;> trivial
  | increment threadId p =>
      simp only [worker, Option.map_eq_some_iff, Prod.exists, Prod.mk.injEq] at h
      obtain ⟨c₁, q, h, rfl, rfl⟩ := h
      exact .inl ⟨threadId, p, q, rfl, rfl, increment_spec h⟩
  | get p =>
      simp only [worker, Option.map_eq_some_iff, Prod.exists, Prod.mk.injEq] at h
      obtain ⟨c₁, q, h, rfl, rfl⟩ := h
      cases p with
      | lockGlobal =>
          simp only [get, Option.map_eq_some_iff, Mutex.lock_eq_some, Prod.mk.injEq] at h
          obtain ⟨m, ⟨hfree, rfl⟩, rfl, rfl⟩ := h
          refine .inr ⟨rfl, rfl, rfl, rfl, ?_, rfl, fun _ => rfl, trivial⟩
          simpa [hfree] using Mutex.Moves.lock
      | loadValue =>
          simp only [get, Option.some.injEq, Prod.mk.injEq] at h
          obtain ⟨rfl, rfl⟩ := h
          exact .inr ⟨rfl, rfl, rfl, rfl, .keep, rfl, fun _ => rfl, trivial⟩
      | unlockGlobal rc =>
          simp only [get, Option.some.injEq, Prod.mk.injEq] at h
          obtain ⟨rfl, rfl⟩ := h
          exact .inr ⟨rfl, rfl, rfl, rfl, .unlock, rfl, fun _ => rfl, trivial⟩

/-- One step of thread `i` from `w` with the counter `c` to `w'` with `c'`. -/
structure WorkerSpec (i : ι) (c c' : Counter ι n) (w w' : Worker n) : Prop where
  threshold : c'.threshold = c.threshold
  slot : ∀ k, Mutex.Moves i (c.locallock k) (w.point k).isSome (c'.locallock k)
    (w'.point k).isSome
  global : Mutex.Moves i c.globallock w.inGlobal c'.globallock w'.inGlobal
  frameLocal : ∀ k, w.point k = none → c'.locals k = c.locals k
  frameValue : w.inGlobal = false → c'.value = c.value
  reg : w.RegOk c → w'.RegOk c'

theorem worker_spec {i : ι} {op : Op n} {c c' : Counter ι n} {w w' : Worker n}
    (h : worker i op c w = some (c', w')) : WorkerSpec i c c' w w' := by
  rcases worker_cases h with ⟨threadId, p, q, hw, hw', hspec⟩ | hquiet
  · have hpoint : ∀ k, w.point k = if threadId = k then p.held else none := by
      intro k
      simp only [Worker.point, hw]
    have hpoint' : ∀ k, w'.point k
        = if threadId = k then q.resume Increment.held none else none := by
      intro k
      cases q <;> simp only [Worker.point, hw', Ctl.resume_goto, Ctl.resume_ret, ite_self]
    refine ⟨hspec.threshold, ?slot, ?global, ?frame, ?value, ?reg⟩
    case slot =>
      intro k
      rw [hpoint, hpoint']
      by_cases hk : threadId = k
      · rw [if_pos hk, if_pos hk, ← hk]
        exact hspec.slot
      · rw [if_neg hk, if_neg hk, hspec.locallock k (Ne.symm hk)]
        exact .keep
    case global =>
      have hglobal := hspec.global
      cases q <;> simpa only [Worker.inGlobal, hw, hw', Ctl.resume_goto, Ctl.resume_ret]
        using hglobal
    case frame =>
      intro k hk
      rw [hpoint] at hk
      by_cases hkt : threadId = k
      · rw [if_pos hkt] at hk
        rw [← hkt]
        exact hspec.frameLocal hk
      · exact hspec.locals k (Ne.symm hkt)
    case value =>
      intro hout
      simp only [Worker.inGlobal, hw] at hout
      exact hspec.frameValue hout
    case reg =>
      intro hreg
      simp only [Worker.RegOk, hw] at hreg
      have := hspec.reg hreg
      cases q <;> simp_all
  · refine ⟨hquiet.threshold, ?_, hquiet.global, ?_, fun _ => hquiet.value, fun _ => hquiet.reg⟩
    · intro k
      rw [hquiet.locallock, hquiet.point_old, hquiet.point]
      exact .keep
    · intro k _
      rw [hquiet.locals]

/-! ## The slots -/

/-- The program point of the thread that holds the lock of slot `k`. -/
def point (c : Conf ι (Counter ι n) (Worker n)) (k : Fin n) : Option Increment :=
  (c.shared.locallock k).bind fun i => (c.threads i).point k

/-- What the slots have still to hand over to `value`. -/
def owedTotal (c : Conf ι (Counter ι n) (Worker n)) : Int :=
  ∑ k, owed (c.shared.locals k) (point c k)

/-- What the next step of thread `i` adds to `value`. -/
def hands (i : ι) (c : Conf ι (Counter ι n) (Worker n)) : Int := (c.threads i).hands c.shared

/-- The increments stored and not completed. -/
def inFlightTotal (c : Conf ι (Counter ι n) (Worker n)) : Int :=
  ∑ k, inFlight (point c k)

/-- A sum in which one summand changes. -/
theorem sum_add_of_ne {f g : Fin n → Int} {k : Fin n} (h : ∀ j, j ≠ k → g j = f j) :
    ∑ j, g j + f k = ∑ j, f j + g k := by
  have hrest : ∑ j ∈ Finset.univ.erase k, g j = ∑ j ∈ Finset.univ.erase k, f j :=
    Finset.sum_congr rfl fun j hj => h j (Finset.ne_of_mem_erase hj)
  rw [← Finset.add_sum_erase _ _ (Finset.mem_univ k), hrest,
    ← Finset.add_sum_erase _ f (Finset.mem_univ k)]
  omega

/-! While no call of `increment` is in progress, a slot owes what is in it. -/

theorem point_of_quiet {c : Conf ι (Counter ι n) (Worker n)}
    (h : ∀ i, (c.threads i).inIncrement = false) (k : Fin n) : point c k = none := by
  unfold point
  cases c.shared.locallock k with
  | none => rfl
  | some i =>
      have hi := h i
      show (c.threads i).point k = none
      generalize c.threads i = w at hi ⊢
      obtain ⟨pc, got⟩ := w
      cases pc <;> simp_all

theorem owedTotal_of_quiet {c : Conf ι (Counter ι n) (Worker n)}
    (h : ∀ i, (c.threads i).inIncrement = false) : owedTotal c = ∑ k, c.shared.locals k :=
  Finset.sum_congr rfl fun k _ => by rw [point_of_quiet h]; rfl

theorem inFlightTotal_of_quiet {c : Conf ι (Counter ι n) (Worker n)}
    (h : ∀ i, (c.threads i).inIncrement = false) : inFlightTotal c = 0 :=
  Finset.sum_eq_zero fun k _ => by rw [point_of_quiet h]; rfl

variable [DecidableEq ι]

/-- A slot that the mover does not touch is seen as before. -/
theorem point_congr {f : Counter ι n → Worker n → Option (Counter ι n × Worker n)} {i : ι}
    {c c' : Conf ι (Counter ι n) (Worker n)} (h : c.step f i = some c') {k : Fin n}
    (hlock : c'.shared.locallock k = c.shared.locallock k)
    (hpoint : (c'.threads i).point k = (c.threads i).point k) : point c' k = point c k := by
  unfold point
  rw [hlock]
  cases c.shared.locallock k with
  | none => rfl
  | some j =>
      show (c'.threads j).point k = (c.threads j).point k
      by_cases hj : j = i
      · rw [hj, hpoint]
      · rw [Conf.step_threads_ne h hj]

/-! ## The invariant -/

/-- The invariant of the counter: each lock is held by the thread in its section,
loaded values are current, the slots keep their bounds, and `value` is an `int`. -/
structure Inv (t : Int) (c : Conf ι (Counter ι n) (Worker n)) : Prop where
  threshold : c.shared.threshold = t
  global : ∀ j, (c.threads j).inGlobal = true ↔ c.shared.globallock = some j
  slot : ∀ k j, ((c.threads j).point k).isSome = true ↔ c.shared.locallock k = some j
  reg : ∀ j, (c.threads j).RegOk c.shared
  bound : ∀ k, Bound t (c.shared.locals k) (point c k)
  small : signed 32 c.shared.value = c.shared.value

omit [DecidableEq ι] in
/-- The holder of a lock is what the slot sees. -/
theorem point_eq {c : Conf ι (Counter ι n) (Worker n)} {i : ι} {k : Fin n}
    (hslot : ∀ j, ((c.threads j).point k).isSome = true ↔ c.shared.locallock k = some j)
    (h : (c.threads i).point k = none → c.shared.locallock k = none) :
    point c k = (c.threads i).point k := by
  unfold point
  cases hp : (c.threads i).point k with
  | none => rw [h hp]; rfl
  | some p => rw [(hslot i).mp (by rw [hp]; rfl)]; exact hp

omit [DecidableEq ι] in
theorem inv_init {threshold : Int} (ht : IsThreshold threshold) :
    Inv threshold (initial ι n threshold) where
  threshold := rfl
  global := fun _ => ⟨nofun, nofun⟩
  slot := fun _ _ => ⟨nofun, nofun⟩
  reg := fun _ => trivial
  bound := fun _ => ⟨Int.le_refl 0, ht.1⟩
  small := signed_zero 32

/-- The locks are held as before, or the mover has locked or unlocked one. -/
theorem Inv.slot_step {t : Int} {m : Move ι n} {c c' : Conf ι (Counter ι n) (Worker n)}
    (hI : Inv t c) (h : c.step (worker m.tid m.op) m.tid = some c') (k : Fin n) :
    ∀ j, ((c'.threads j).point k).isSome = true ↔ c'.shared.locallock k = some j := by
  have hspec := worker_spec (Conf.step_mover h)
  exact (hspec.slot k).holder (hI.slot k) rfl rfl
    fun j hj => by rw [Conf.step_threads_ne h hj]

/-- The step that stores an increment. -/
def stores (m : Move ι n) (c : Conf ι (Counter ι n) (Worker n)) : Bool :=
  match (c.threads m.tid).pc with
  | .increment _ p => p.stores
  | _ => false

/-- The mover is in a call of `increment` with slot `k`. -/
def usesSlot (m : Move ι n) (c : Conf ι (Counter ι n) (Worker n)) (k : Fin n) : Bool :=
  match (c.threads m.tid).pc with
  | .increment threadId _ => threadId = k
  | _ => false

omit [DecidableEq ι] in
theorem usesSlot_iff {m : Move ι n} {c : Conf ι (Counter ι n) (Worker n)} {k : Fin n} :
    usesSlot m c k = true ↔ ∃ p, (c.threads m.tid).pc = .increment k p := by
  unfold usesSlot
  split
  · next threadId p hpc =>
    rw [decide_eq_true_eq, hpc]
    constructor
    · rintro rfl
      exact ⟨p, rfl⟩
    · rintro ⟨q, hq⟩
      cases hq
      rfl
  · next hno =>
    refine iff_of_false Bool.false_ne_true ?_
    rintro ⟨p, hpc⟩
    exact hno k p hpc

omit [DecidableEq ι] in
theorem inIncrement_of_completes {m : Move ι n} {c : Conf ι (Counter ι n) (Worker n)}
    (h : completes m c = true) : (c.threads m.tid).inIncrement = true := by
  unfold completes at h
  split at h
  · next hpc => rw [Worker.inIncrement, hpc]
  · cases h

omit [DecidableEq ι] in
/-- Who is not in `increment` hands nothing over. -/
theorem hands_of_outside {i : ι} {c : Conf ι (Counter ι n) (Worker n)}
    (h : (c.threads i).inIncrement = false) : hands i c = 0 := by
  unfold hands
  generalize c.threads i = w at h ⊢
  obtain ⟨pc, got⟩ := w
  cases pc with
  | increment threadId p => cases h
  | _ => rfl

/-- What a step does to `value` and the slots: to each of them, and to all together. -/
structure Account (t : Int) (m : Move ι n) (c c' : Conf ι (Counter ι n) (Worker n)) : Prop where
  value : c'.shared.value = signed 32 (c.shared.value + hands m.tid c)
  added : hands m.tid c = 0 ∨ hands m.tid c = t
  stored : owedTotal c' + hands m.tid c = owedTotal c + (stores m c).toNat
  flight : inFlightTotal c' + (completes m c).toNat = inFlightTotal c + (stores m c).toNat
  bound : ∀ k, Bound t (c'.shared.locals k) (point c' k)
  other : ∀ k, usesSlot m c k = false →
    c'.shared.locals k = c.shared.locals k ∧ point c' k = point c k
  own : ∀ k, usesSlot m c k = true →
    inFlight (point c' k) + (completes m c).toNat = inFlight (point c k) + (stores m c).toNat
      ∧ (owed (c'.shared.locals k) (point c' k)
            = owed (c.shared.locals k) (point c k) + (stores m c).toNat
          ∨ owed (c'.shared.locals k) (point c' k) + t
            = owed (c.shared.locals k) (point c k) + (stores m c).toNat)

/-- **One step**: the mover's slot is accounted for by the code of `increment`, and
the other slots are as they were. -/
theorem Inv.account {t : Int} (ht : IsThreshold t) {m : Move ι n}
    {c c' : Conf ι (Counter ι n) (Worker n)} (hI : Inv t c)
    (h : c.step (worker m.tid m.op) m.tid = some c') : Account t m c c' := by
  rcases worker_cases (Conf.step_mover h) with ⟨threadId, p, q, hw, hw', hspec⟩ | hquiet
  · have hreg := hI.reg m.tid
    simp only [Worker.RegOk, hw] at hreg
    have hpoint : ∀ k, (c.threads m.tid).point k = if threadId = k then p.held else none := by
      intro k
      simp only [Worker.point, hw]
    have hpoint' : ∀ k, (c'.threads m.tid).point k
        = if threadId = k then q.resume Increment.held none else none := by
      intro k
      cases q <;> simp only [Worker.point, hw', Ctl.resume_goto, Ctl.resume_ret, ite_self]
    -- the other slots
    have hother : ∀ k, k ≠ threadId → point c' k = point c k := by
      intro k hk
      apply point_congr h (hspec.locallock k hk)
      rw [hpoint, hpoint', if_neg (Ne.symm hk), if_neg (Ne.symm hk)]
    -- the mover's slot
    have hown : point c threadId = p.held := by
      have hmover := hpoint threadId
      rw [if_pos rfl] at hmover
      rw [← hmover]
      exact point_eq (hI.slot threadId) fun hnone => hspec.free (hmover.symm.trans hnone)
    have hown' : point c' threadId = q.resume Increment.held none := by
      have hmover := hpoint' threadId
      rw [if_pos rfl] at hmover
      rw [← hmover]
      exact point_eq (hI.slot_step h threadId)
        fun hnone => hspec.freed (hmover.symm.trans hnone)
    have hstores : stores m c = p.stores := by simp only [stores, hw]
    have hcompletes : completes m c = p.returns := by
      simp only [completes, hw]
      cases p <;> rfl
    have hhands : hands m.tid c = p.hands (c.shared.locals threadId) := by
      simp only [hands, Worker.hands, hw]
    have hbound := hI.bound threadId
    rw [hown, ← hI.threshold] at hbound
    obtain ⟨ht, hint⟩ := ht
    rw [← hI.threshold] at ht hint
    have hadded := hspec.hands hbound
    have howed := hspec.owed hreg hint hbound
    rw [← hhands] at hadded howed
    refine ⟨?value, ?added, ?stored, ?flight, ?bound, ?other, ?own⟩
    case value =>
      rw [hhands]
      exact hspec.value hreg hI.small
    case added => exact hI.threshold ▸ hadded
    case stored =>
      have hsum := sum_add_of_ne (k := threadId)
        (f := fun k => owed (c.shared.locals k) (point c k))
        (g := fun k => owed (c'.shared.locals k) (point c' k))
        fun k hk => by rw [hspec.locals k hk, hother k hk]
      unfold owedTotal
      rw [hown, hown'] at hsum
      rw [hstores]
      omega
    case flight =>
      have hsum := sum_add_of_ne (k := threadId) (f := fun k => inFlight (point c k))
        (g := fun k => inFlight (point c' k)) fun k hk => by rw [hother k hk]
      have := hspec.flight
      unfold inFlightTotal
      rw [hown, hown'] at hsum
      rw [hstores, hcompletes]
      omega
    case bound =>
      intro k
      by_cases hk : k = threadId
      · rw [hk, hown', ← hI.threshold]
        exact hspec.bound hreg ht hint hbound
      · rw [hspec.locals k hk, hother k hk]
        exact hI.bound k
    case other =>
      intro k hk
      simp only [usesSlot, hw, decide_eq_false_iff_not] at hk
      exact ⟨hspec.locals k (Ne.symm hk), hother k (Ne.symm hk)⟩
    case own =>
      intro k hk
      simp only [usesSlot, hw, decide_eq_true_eq] at hk
      rw [← hk, hown, hown', hstores, hcompletes, ← hI.threshold]
      have := hspec.flight
      exact ⟨by omega, hadded.imp (fun _ => by omega) (fun _ => by omega)⟩
  · have hother : ∀ k, point c' k = point c k := by
      intro k
      apply point_congr h (by rw [hquiet.locallock])
      rw [hquiet.point, hquiet.point_old]
    have hno : stores m c = false ∧ completes m c = false ∧ ∀ k, usesSlot m c k = false := by
      have hout := hquiet.outside
      unfold stores completes usesSlot
      cases hpc : (c.threads m.tid).pc <;> simp_all
    have hnone := hands_of_outside hquiet.outside
    refine ⟨?_, .inl hnone, ?_, ?_, ?_, ?_, ?_⟩
    · rw [hquiet.value, hnone, Int.add_zero, hI.small]
    · simp only [owedTotal, hother, hquiet.locals, hno.1, hnone]
      rfl
    · simp only [inFlightTotal, hother, hno.1, hno.2.1]
    · intro k
      rw [hother, hquiet.locals]
      exact hI.bound k
    · intro k _
      exact ⟨by rw [hquiet.locals], hother k⟩
    · intro k hk
      rw [hno.2.2 k] at hk
      cases hk

omit [DecidableEq ι] in
theorem Inv.slot_alone {t : Int} {c : Conf ι (Counter ι n) (Worker n)} (hI : Inv t c)
    {i j : ι} {k : Fin n} (hj : (c.threads j).point k ≠ none) (hij : i ≠ j) :
    (c.threads i).point k = none := by
  by_contra hi
  have hlock := (hI.slot k j).mp (Option.isSome_iff_ne_none.mpr hj)
  have hlock' := (hI.slot k i).mp (Option.isSome_iff_ne_none.mpr hi)
  exact hij (Option.some.inj (hlock'.symm.trans hlock))

omit [DecidableEq ι] in
theorem Inv.global_alone {t : Int} {c : Conf ι (Counter ι n) (Worker n)} (hI : Inv t c)
    {i j : ι} (hj : (c.threads j).inGlobal = true) (hij : i ≠ j) :
    (c.threads i).inGlobal = false := by
  by_contra hi
  have hlock := (hI.global i).mp (Bool.not_eq_false _ ▸ hi)
  exact hij (Option.some.inj (hlock.symm.trans ((hI.global j).mp hj)))

theorem Inv.step {t : Int} (ht : IsThreshold t) {m : Move ι n}
    {c c' : Conf ι (Counter ι n) (Worker n)} (hI : Inv t c)
    (h : c.step (worker m.tid m.op) m.tid = some c') : Inv t c' := by
  have hspec := worker_spec (Conf.step_mover h)
  have haccount := hI.account ht h
  refine ⟨hspec.threshold.trans hI.threshold, ?global, hI.slot_step h, ?reg,
    haccount.bound, ?small⟩
  case small =>
    rw [haccount.value, signed_signed]
  case global =>
    exact hspec.global.holder hI.global rfl rfl fun j hj => by rw [Conf.step_threads_ne h hj]
  case reg =>
    apply Conf.step_forall (A := fun s w => w.RegOk s) h (hspec.reg (hI.reg m.tid))
    intro j hj
    show (c.threads j).RegOk c'.shared
    have hreg := hI.reg j
    cases hpc : (c.threads j).pc with
    | increment threadId p =>
        have hvalue : p.inGlobal = true → c'.shared.value = c.shared.value := by
          intro hin
          apply hspec.frameValue (hI.global_alone (j := j) ?_ (Ne.symm hj))
          rw [Worker.inGlobal, hpc]
          exact hin
        have hlocals : p.held ≠ none →
            c'.shared.locals threadId = c.shared.locals threadId := by
          intro hin
          apply hspec.frameLocal threadId (hI.slot_alone (j := j) ?_ (Ne.symm hj))
          rw [Worker.point, hpc]
          show (if threadId = threadId then p.held else none) ≠ none
          rw [if_pos rfl]
          exact hin
        simp only [Worker.RegOk, hpc] at hreg ⊢
        cases p <;> simp_all
    | _ => simp [hpc]

theorem inv_inductive {t : Int} (ht : IsThreshold t) : (program ι n t).Inductive (Inv t) :=
  ⟨inv_init ht, Inv.step ht⟩

end CAdvanced.SloppyCounter
