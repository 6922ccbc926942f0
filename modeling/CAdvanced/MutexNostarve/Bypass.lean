import CAdvanced.MutexNostarve.Invariant

/-!
# MutexNostarve — Bypass

No starvation, as a safety law: from the moment a thread has registered in
`warteraum1` until it passes `drehkreuz2`, any other thread passes
`drehkreuz2` at most twice.

The source comment speaks of two phases. Here the phase is a weight: the
token is DRAINING while it is on its way through `drehkreuz2` (from the
decision to open it to the decision to open `drehkreuz1` again). While it
drains nobody enters the second waiting room; while it does not, nobody
passes `drehkreuz2`. What another thread may still do before us is then one
pass out of the current drain (if it is already in the second waiting room)
and one out of the drain we take part in.
-/

namespace CAdvanced.MutexNostarve

open Interleave System

/-! ## Phases and places -/

/-- Has the token and brings it through `drehkreuz2`. -/
@[simp] def Worker.draining : Worker → Nat
  | ⟨.acquire .postMutexEmpty, _⟩ | ⟨.acquire .postDrehkreuz2, _⟩
  | ⟨.acquire .loadWarteraum2Dec, _⟩ | ⟨.acquire (.storeWarteraum2Dec _), _⟩
  | ⟨.loadCritical, _⟩ | ⟨.storeCritical _, _⟩ | ⟨.release _, _⟩ => 1
  | _ => 0

/-- Registered in `warteraum1` and not yet past `drehkreuz1`. -/
@[simp] def Worker.waiting1 : Worker → Nat
  | ⟨.acquire .postMutex, _⟩ | ⟨.acquire .waitDrehkreuz1, _⟩ => 1
  | _ => 0

/-- Past `drehkreuz1` and not yet past `drehkreuz2`. -/
@[simp] def Worker.waiting2 : Worker → Nat
  | ⟨.acquire .loadWarteraum2, _⟩ | ⟨.acquire (.storeWarteraum2 _), _⟩
  | ⟨.acquire .waitMutexAgain, _⟩ | ⟨.acquire .loadWarteraum1Dec, _⟩
  | ⟨.acquire (.storeWarteraum1Dec _), _⟩ | ⟨.acquire .testWarteraum1, _⟩
  | ⟨.acquire .postMutexEmpty, _⟩ | ⟨.acquire .postDrehkreuz2, _⟩
  | ⟨.acquire .postMutexBusy, _⟩ | ⟨.acquire .postDrehkreuz1, _⟩
  | ⟨.acquire .waitDrehkreuz2, _⟩ => 1
  | _ => 0

/-- At `sem_wait(&m->drehkreuz1)`. -/
@[simp] def Worker.atDrehkreuz1 : Worker → Bool
  | ⟨.acquire .waitDrehkreuz1, _⟩ => true
  | _ => false

/-- At `sem_wait(&m->drehkreuz2)`. -/
@[simp] def Worker.atDrehkreuz2 : Worker → Bool
  | ⟨.acquire .waitDrehkreuz2, _⟩ => true
  | _ => false

/-- About to decide for the second turnstile. -/
@[simp] def Worker.opens2 (s : Shared) : Worker → Bool
  | ⟨.acquire .testWarteraum1, _⟩ => s.mutex.warteraum1 = 0
  | _ => false

/-- About to reopen the first turnstile on release. -/
@[simp] def Worker.reopens1 : Worker → Bool
  | ⟨.release .postDrehkreuz1, _⟩ => true
  | _ => false

/-- One step of a worker, as far as the phases are concerned. -/
structure PhaseSpec (s s' : Shared) (a b : Worker) : Prop where
  phase : s'.mutex.drehkreuz2 + b.draining + a.reopens1.toNat
    = s.mutex.drehkreuz2 + a.draining + (a.opens2 s).toNat
  opened1 : a.atDrehkreuz1 = true → 0 < s.mutex.drehkreuz1
  opened2 : a.atDrehkreuz2 = true → 0 < s.mutex.drehkreuz2
  /-- A waiting thread waits until it passes the second turnstile. -/
  stays : 0 < a.waiting1 + a.waiting2 → a.atDrehkreuz2 = false →
    0 < b.waiting1 + b.waiting2 ∧ b.waiting1 ≤ a.waiting1
  /-- The second waiting room is entered through the first turnstile and left
  through the second. -/
  gate : b.waiting2 + a.atDrehkreuz2.toNat = a.waiting2 + a.atDrehkreuz1.toNat

theorem worker_phase {s s' : Shared} {a b : Worker}
    (h : worker s a = some (s', b)) : PhaseSpec s s' a b := by
  obtain ⟨pc, n⟩ := a
  cases pc with
  | idle =>
      cases n <;> simp only [worker, Option.some.injEq, Prod.mk.injEq] at h <;>
        obtain ⟨rfl, rfl⟩ := h <;> constructor <;> simp
  | acquire p =>
      simp only [worker, Option.map_eq_some_iff, Prod.mk.injEq, Prod.exists] at h
      obtain ⟨m, k, hk, rfl, rfl⟩ := h
      cases p with
      | waitMutex | waitDrehkreuz1 | waitMutexAgain | waitDrehkreuz2 =>
          simp only [nsMutexAcquire, Option.map_eq_some_iff, semWait_eq_some,
            Prod.mk.injEq] at hk
          obtain ⟨u, hu, rfl, rfl⟩ := hk
          constructor <;> simp [hu]
      | testWarteraum1 =>
          simp only [nsMutexAcquire, Option.some.injEq, Prod.mk.injEq] at hk
          obtain ⟨rfl, rfl⟩ := hk
          by_cases hw : s.mutex.warteraum1 = 0 <;> constructor <;> simp [hw]
      | _ =>
          simp only [nsMutexAcquire, Option.some.injEq, Prod.mk.injEq] at hk
          obtain ⟨rfl, rfl⟩ := hk
          constructor <;> simp [semPost]
  | release p =>
      simp only [worker, Option.map_eq_some_iff, Prod.mk.injEq, Prod.exists] at h
      obtain ⟨m, k, hk, rfl, rfl⟩ := h
      cases p with
      | testWarteraum2 =>
          simp only [nsMutexRelease, Option.some.injEq, Prod.mk.injEq] at hk
          obtain ⟨rfl, rfl⟩ := hk
          split <;> constructor <;> simp
      | _ =>
          simp only [nsMutexRelease, Option.some.injEq, Prod.mk.injEq] at hk
          obtain ⟨rfl, rfl⟩ := hk
          constructor <;> simp [semPost]
  | loadCritical | storeCritical r =>
      simp only [worker, Option.some.injEq, Prod.mk.injEq] at h
      obtain ⟨rfl, rfl⟩ := h
      constructor <;> simp
  | finished => cases h

/-- How the places of this module sit inside the regions of the invariant. -/
structure Worker.Places (w : Worker) : Prop where
  draining : w.draining ≤ w.hasToken
  waiting1 : w.waiting1 ≤ w.inWarteraum1
  /-- Counted by `warteraum2`, or just entering that room with the token. -/
  waiting2 : w.waiting2 ≤ w.inWarteraum2 + w.hasToken
  waiting1_le : w.waiting1 ≤ 1
  waiting2_le : w.waiting2 ≤ 1

theorem Worker.places (w : Worker) : w.Places := by
  obtain ⟨pc, n⟩ := w
  cases pc with
  | acquire p => cases p <;> constructor <;> simp
  | _ => constructor <;> simp

section Waiting
variable {ι : Type} [DecidableEq ι] {rounds : ι → Nat}

/-- `T` has registered and has not passed the second turnstile. -/
def Waiting (T : ι) (c : Conf ι Shared Worker) : Prop :=
  0 < (c.threads T).waiting1 + (c.threads T).waiting2

/-- Thread `x` passes `sem_wait(&m->drehkreuz2)`. -/
def passes (x i : ι) (c : Conf ι Shared Worker) : Bool :=
  decide (i = x) && (c.threads i).atDrehkreuz2

@[simp] theorem passes_self (x : ι) (c : Conf ι Shared Worker) :
    passes x x c = (c.threads x).atDrehkreuz2 := by
  simp only [passes, decide_true, Bool.true_and]

theorem passes_ne {x i : ι} (h : i ≠ x) (c : Conf ι Shared Worker) :
    passes x i c = false := by
  rw [passes, decide_eq_false h, Bool.false_and]

theorem waiting_step {i T : ι} {c c' : Conf ι Shared Worker}
    (h : (program rounds).next i c = some c') (hT : Waiting T c)
    (hstop : passes T i c = false) :
    Waiting T c' ∧ (c'.threads T).waiting1 ≤ (c.threads T).waiting1 := by
  by_cases hi : T = i
  · subst hi
    rw [passes_self] at hstop
    exact (worker_phase (Conf.step_mover h)).stays hT hstop
  · rw [Waiting, Conf.step_threads_ne h hi]
    exact ⟨hT, Nat.le_refl _⟩

end Waiting

section Drain
variable {ι : Type} [Fintype ι] {rounds : ι → Nat}

/-- `1` while the token drains through the second turnstile, else `0`. -/
def drain (c : Conf ι Shared Worker) : Nat :=
  c.shared.mutex.drehkreuz2 + total Worker.draining c.threads

theorem Inv.drain_le {c : Conf ι Shared Worker} (hI : Inv rounds c) :
    c.shared.mutex.drehkreuz1 + drain c ≤ 1 := by
  have := total_le_total fun i => (c.threads i).places.draining
  have := hI.token
  unfold drain
  omega

theorem drain_step [DecidableEq ι] {i : ι} {c c' : Conf ι Shared Worker}
    (h : (program rounds).next i c = some c') :
    drain c' + (c.threads i).reopens1.toNat
      = drain c + ((c.threads i).opens2 c.shared).toNat := by
  have := (worker_phase (Conf.step_mover h)).phase
  have := Conf.total_step Worker.draining h
  unfold drain
  omega

theorem Worker.of_opens2 {s : Shared} {w : Worker} (h : w.opens2 s = true) :
    s.mutex.warteraum1 = 0 := by
  obtain ⟨pc, n⟩ := w
  cases pc with
  | acquire p => cases p <;> simp_all
  | _ => simp at h

theorem Worker.of_reopens1 {s : Shared} {w : Worker} (h : w.reopens1 = true)
    (hreg : w.RegOk s) : s.mutex.warteraum2 = 0 ∧ w.hasToken = 1 ∧ w.waiting2 = 0 := by
  obtain ⟨pc, n⟩ := w
  cases pc with
  | release p => cases p <;> simp_all
  | _ => simp at h

/-- The drain begins only when the first waiting room is empty. -/
theorem Inv.not_waiting1_of_opens2 {c : Conf ι Shared Worker} (hI : Inv rounds c)
    {i : ι} (hi : (c.threads i).opens2 c.shared = true) (T : ι) :
    (c.threads T).waiting1 = 0 := by
  have hempty := Worker.of_opens2 hi
  have := hI.room1
  have := le_total Worker.inWarteraum1 c.threads T
  have := (c.threads T).places.waiting1
  omega

/-- The drain ends only when the second waiting room is empty. -/
theorem Inv.not_waiting2_of_reopens1 {c : Conf ι Shared Worker} (hI : Inv rounds c)
    {i : ι} (hi : (c.threads i).reopens1 = true) (T : ι) :
    (c.threads T).waiting2 = 0 := by
  obtain ⟨hempty, htoken, hmover⟩ := Worker.of_reopens1 hi (hI.regs i)
  by_cases hT : T = i
  · rw [hT, hmover]
  · have := hI.room2
    have := hI.token
    have := le_total Worker.inWarteraum2 c.threads T
    have := add_le_total Worker.hasToken c.threads hT
    have := (c.threads T).places.waiting2
    omega

/-- How often `X` may still pass the second turnstile before the waiting
thread `T` does. -/
def budget (T X : ι) (c : Conf ι Shared Worker) : Nat :=
  if drain c = 0 then 1 else (c.threads T).waiting1 + (c.threads X).waiting2

theorem budget_le_two (T X : ι) (c : Conf ι Shared Worker) : budget T X c ≤ 2 := by
  have := (c.threads T).places.waiting1_le
  have := (c.threads X).places.waiting2_le
  unfold budget
  split <;> omega

variable [DecidableEq ι]

/-- While the token drains, the second waiting room is only left. -/
theorem gate_step {i X : ι} {c c' : Conf ι Shared Worker} (hI : Inv rounds c)
    (h : (program rounds).next i c = some c') (hdrain : drain c ≠ 0) :
    (c'.threads X).waiting2 + (passes X i c).toNat ≤ (c.threads X).waiting2 := by
  by_cases hi : X = i
  · subst hi
    have hp := worker_phase (Conf.step_mover h)
    have hclosed : (c.threads X).atDrehkreuz1 = false := by
      rw [← Bool.not_eq_true]
      intro hd
      have := hp.opened1 hd
      have := hI.drain_le
      omega
    have hgate := hp.gate
    rw [hclosed, Bool.toNat_false] at hgate
    rw [passes_self]
    omega
  · rw [Conf.step_threads_ne h hi, passes_ne (Ne.symm hi)]
    exact Nat.le_refl _

/-- Nobody passes the second turnstile unless the token drains. -/
theorem drain_of_passes {i X : ι} {c c' : Conf ι Shared Worker}
    (h : (program rounds).next i c = some c') (hpass : passes X i c = true) :
    drain c ≠ 0 := by
  rw [passes, Bool.and_eq_true] at hpass
  have := (worker_phase (Conf.step_mover h)).opened2 hpass.2
  unfold drain
  omega

/-- **The budget step**: as long as `T` has not passed, every pass of `X` is
paid for, and no step of any thread raises the budget. -/
theorem budget_step {i T X : ι} {c c' : Conf ι Shared Worker} (hI : Inv rounds c)
    (hT : Waiting T c) (h : (program rounds).next i c = some c')
    (hstop : passes T i c = false) :
    budget T X c' + (passes X i c).toNat ≤ budget T X c := by
  have hdrain := drain_step h
  by_cases hd : drain c = 0
  · -- not draining: nobody passes, and a drain that begins now begins with
    -- everybody past the first turnstile
    have hpass : passes X i c = false := by
      rw [← Bool.not_eq_true]
      exact fun hp => drain_of_passes h hp hd
    rw [hpass, Bool.toNat_false, budget, budget, if_pos hd]
    split
    · exact Nat.le_refl _
    · have hopens : (c.threads i).opens2 c.shared = true := by
        rw [← Bool.not_eq_false]
        intro ho
        rw [ho, Bool.toNat_false] at hdrain
        omega
      have := hI.not_waiting1_of_opens2 hopens T
      have := (waiting_step h hT hstop).2
      have := (c'.threads X).places.waiting2_le
      omega
  · have hgate := gate_step (X := X) hI h hd
    rw [budget, budget, if_neg hd]
    split
    · -- the drain ends with the second waiting room empty, so `T` still
      -- stands before the first turnstile
      have hreopens : (c.threads i).reopens1 = true := by
        rw [← Bool.not_eq_false]
        intro ho
        rw [ho, Bool.toNat_false] at hdrain
        omega
      have := hI.not_waiting2_of_reopens1 hreopens T
      have := hI.not_waiting2_of_reopens1 hreopens X
      unfold Waiting at hT
      omega
    · have := (waiting_step h hT hstop).2
      omega

/-- **Bounded bypass**: from the step with which `T` stores its
`warteraum1 += 1`, along every run in which `T` has not yet passed its
`sem_wait(&m->drehkreuz2)`, every other thread `X` passes it at most
twice. -/
theorem mutex_nostarve_bypass (rounds : ι → Nat) {c₀ c₁ c₂ : Conf ι Shared Worker}
    {T X : ι} {r : Int} {ls : List ι} (h₀ : (program rounds).Reachable c₀)
    (hT : (c₀.threads T).pc = .acquire (.storeWarteraum1 r))
    (h₁ : (program rounds).next T c₀ = some c₁)
    (hrun : (program rounds).exec ls c₁ = some c₂)
    (hwait : (program rounds).tally (passes T) ls c₁ = 0) :
    (program rounds).tally (passes X) ls c₁ ≤ 2 := by
  have hI : Inv rounds c₁ := inv_inductive.reachable (h₀.next h₁)
  have hstart : Waiting T c₁ := by
    have hf := Conf.step_mover h₁
    have hw : c₀.threads T = ⟨.acquire (.storeWarteraum1 r), (c₀.threads T).left⟩ := by
      rw [← hT]
    rw [hw] at hf
    simp only [worker, nsMutexAcquire, Option.map_some, Option.some.injEq,
      Prod.mk.injEq] at hf
    rw [Waiting, ← hf.2]
    exact Nat.one_pos
  refine Nat.le_trans (tally_le_of_budget
    (I := fun c => Inv rounds c ∧ Waiting T c) ?_ ⟨hI, hstart⟩ hrun hwait) (budget_le_two T X c₁)
  intro i c c' hc hstep hstop
  exact ⟨⟨inv_step hc.1 hstep, (waiting_step hstep hc.2 hstop).1⟩,
    budget_step hc.1 hc.2 hstep hstop⟩

/-- The bound is met: thread `1` registers while thread `0` is about to open
the second turnstile, and thread `0` passes it then and once more in the
drain that thread `1` starts. -/
theorem mutex_nostarve_bypass_tight :
    ∃ (ls : List (Fin 2)) (c₁ c₂ : Conf (Fin 2) Shared Worker),
      (program fun _ => 2).exec ls c₁ = some c₂
      ∧ (program fun _ => 2).tally (passes 1) ls c₁ = 0
      ∧ (program fun _ => 2).tally (passes 0) ls c₁ = 2
      ∧ (program fun _ => 2).tally (passes 0) ls c₁ ≤ 2 := by
  let ls : List (Fin 2) := 1 :: (List.replicate 22 0 ++ List.replicate 9 1 ++ [0])
  obtain ⟨c₀, h₀, hc₀⟩ := Option.any_eq_true _ _ |>.mp
    (show (((program fun _ => 2).exec
        (List.replicate 13 0 ++ List.replicate 3 1) (initial fun _ => 2)).any fun c =>
      (c.threads 1).pc = .acquire (.storeWarteraum1 0)
        ∧ ((program fun _ => 2).next 1 c).any fun c₁ =>
          (program fun _ => 2).tally (passes 1) ls c₁ = 0
          ∧ (program fun _ => 2).tally (passes 0) ls c₁ = 2
          ∧ ((program fun _ => 2).exec ls c₁).isSome) = true by decide +kernel)
  obtain ⟨hpc, hnext⟩ := of_decide_eq_true hc₀
  obtain ⟨c₁, h₁, hc₁⟩ := Option.any_eq_true _ _ |>.mp hnext
  obtain ⟨hwait, htwo, hrun⟩ := of_decide_eq_true hc₁
  obtain ⟨c₂, h₂⟩ := Option.isSome_iff_exists.mp hrun
  exact ⟨ls, c₁, c₂, h₂, hwait, htwo,
    mutex_nostarve_bypass (fun _ => 2) ⟨_, h₀⟩ hpc h₁ h₂ hwait⟩

end Drain

end CAdvanced.MutexNostarve
