import CAdvanced.Interleave.Sync
import CAdvanced.Interleave.Tickets

/-!
# Interleave — Kernel threads and the unload of their module

A module runs threads of its own, each until its code calls `complete_and_exit`; the code that
unloads the module signals the threads and waits for their completions. A signal reaches a
thread once it has allowed it, and stays pending. A thread that has ended is no more: its
`task_struct` may be freed, and nobody must pass it on.

Two rules for a run of such a module:

* `all_alive_of_not_early` — the unload passes on living threads only, as long as no thread leaves
  its last wait before the last call that names it;
* `completed_of_returned` — when the unload has waited as often as there are threads, all of them
  have completed.

And one for two modules whose threads differ in their code alone: what relates a step of the
code of the one to the code of the other relates the modules (`next_erase`).
-/

namespace Interleave

/-- A signal for a thread: without effect until the thread allows it. -/
inductive Sigterm where
  | ignored
  | allowed
  | pending
  deriving DecidableEq, Repr

/-- The thread calls `allow_signal`. -/
def Sigterm.allow : Sigterm → Sigterm
  | .ignored => .allowed
  | g => g

/-- The signal is sent. -/
def Sigterm.send : Sigterm → Sigterm
  | .ignored => .ignored
  | _ => .pending

/-- Where a kernel thread stands: in its code, at one of the two steps of
`complete_and_exit`, or ended. -/
inductive KthreadPhase (π : Type*) where
  | code (p : π)
  | complete
  | doExit
  | ended
  deriving DecidableEq, Repr

/-- The phase of a thread at the point `f` of other code. -/
def KthreadPhase.map {π ρ : Type*} (f : π → ρ) : KthreadPhase π → KthreadPhase ρ
  | .code p => .code (f p)
  | .complete => .complete
  | .doExit => .doExit
  | .ended => .ended

structure Kthread (π : Type*) where
  phase : KthreadPhase π
  sigterm : Sigterm
  deriving DecidableEq, Repr

namespace Kthread
variable {π : Type*}

/-- It has not ended yet. -/
def alive (t : Kthread π) : Bool :=
  match t.phase with
  | .ended => false
  | _ => true

/-- It has not called `complete_and_exit` yet. -/
def inCode (t : Kthread π) : Bool :=
  match t.phase with
  | .code _ => true
  | _ => false

/-- It has called `complete` in `complete_and_exit`. -/
def completed (t : Kthread π) : Bool :=
  match t.phase with
  | .code _ | .complete => false
  | .doExit | .ended => true

/-- It is sent the signal; nothing happens to a thread that has ended. -/
def signal (t : Kthread π) : Kthread π :=
  if t.alive then { t with sigterm := t.sigterm.send } else t

/-- The same thread in other code. -/
def map {ρ : Type*} (f : π → ρ) (t : Kthread π) : Kthread ρ := { t with phase := t.phase.map f }

/-- One still to be waited for. -/
def incomplete (t : Kthread π) : Nat := (!t.completed).toNat

@[simp] theorem signal_phase (t : Kthread π) : t.signal.phase = t.phase := by
  unfold signal
  split <;> rfl

theorem map_signal {ρ : Type*} (f : π → ρ) (t : Kthread π) :
    t.signal.map f = (t.map f).signal := by
  obtain ⟨phase, g⟩ := t
  cases phase <;> rfl

theorem incomplete_congr {t t' : Kthread π} (h : t'.phase = t.phase) :
    t'.incomplete = t.incomplete := by
  simp [incomplete, completed, h]

theorem completed_of_incomplete {t : Kthread π} (h : t.incomplete = 0) : t.completed = true := by
  cases hc : t.completed with
  | true => rfl
  | false => simp [incomplete, hc] at h

theorem not_inCode_of_completed {t : Kthread π} (h : t.completed = true) : t.inCode = false := by
  obtain ⟨phase, g⟩ := t
  cases phase with
  | code p => cases h
  | complete | doExit | ended => rfl

end Kthread

/-- A call of the unload that has to do with the threads. -/
inductive ExitCall (ι : Type*) where
  | taskPid (i : ι)
  | killPid (i : ι)
  | waitForCompletion
  deriving DecidableEq, Repr

/-- It is passed thread `i`. -/
def ExitCall.names {ι : Type*} [DecidableEq ι] (i : ι) : ExitCall ι → Bool
  | .taskPid j | .killPid j => j = i
  | .waitForCompletion => false

/-- It is a wait. -/
def ExitCall.waits {ι : Type*} : ExitCall ι → Bool
  | .waitForCompletion => true
  | _ => false

/-- What the threads of a module share: its data and the completion, which counts; and the
calls that the unload has still to make. -/
structure ModuleMem (ι σ : Type*) where
  data : σ
  done : Nat
  exit : List (ExitCall ι)
  deriving DecidableEq, Repr

/-- A module with kernel threads: its data, the first point of the threads' code, one step of
the code, and the calls of the unload. A step sees whether a timeout has passed, and the state
of the signal; behind the last point comes `complete_and_exit`. -/
structure KernelModule (ι σ π : Type*) where
  data : σ
  entry : π
  code : ι → Bool → σ → Sigterm → π → Option (σ × Sigterm × Option π)
  exit : List (ExitCall ι)

/-- Who takes the next step: a thread (with what its timer says), somebody who sends it the
signal, or the unload. -/
inductive ModuleEvent (ι : Type*) where
  | thread (i : ι) (timedOut : Bool)
  | sigterm (i : ι)
  | modExit
  deriving DecidableEq, Repr

namespace KernelModule
variable {ι σ π : Type*} [DecidableEq ι] (M : KernelModule ι σ π)

/-- The module, its threads and its unload. -/
abbrev State (ι σ π : Type*) := Conf ι (ModuleMem ι σ) (Kthread π)

/-- One step of thread `i`. -/
def thread (i : ι) (timedOut : Bool) (m : ModuleMem ι σ) (t : Kthread π) :
    Option (ModuleMem ι σ × Kthread π) :=
  match t.phase with
  | .code p => (M.code i timedOut m.data t.sigterm p).map fun r =>
      ({ m with data := r.1 }, ⟨r.2.2.elim .complete .code, r.2.1⟩)
  | .complete => some ({ m with done := m.done + 1 }, { t with phase := .doExit })
  | .doExit => some (m, { t with phase := .ended })
  | .ended => none

/-- One call of the unload. -/
def modExit (c : State ι σ π) : Option (State ι σ π) :=
  match c.shared.exit with
  | [] => none
  | .taskPid _ :: calls => some { c with shared := { c.shared with exit := calls } }
  | .killPid i :: calls => c.step (fun m t => some ({ m with exit := calls }, t.signal)) i
  | .waitForCompletion :: calls => (semWait c.shared.done).map fun d =>
      { c with shared := { c.shared with done := d, exit := calls } }

def next : ModuleEvent ι → State ι σ π → Option (State ι σ π)
  | .thread i timedOut, c => c.step (M.thread i timedOut) i
  | .sigterm i, c => c.step (fun m t => some (m, t.signal)) i
  | .modExit, c => modExit c

/-- The module is loaded and its threads have been created. -/
def start : State ι σ π := ⟨⟨M.data, 0, M.exit⟩, fun _ => ⟨.code M.entry, .ignored⟩⟩

def system : System (State ι σ π) (ModuleEvent ι) := ⟨M.start, M.next⟩

/-- What the unload passes on: whether the thread is alive. -/
def passes : ModuleEvent ι → State ι σ π → Option Bool
  | .modExit, c =>
      match c.shared.exit with
      | .taskPid i :: _ | .killPid i :: _ => some (c.threads i).alive
      | _ => none
  | _, _ => none

/-- A step by which a thread leaves its last wait, as `ends` has it, although the unload has a
call to make that names it. -/
def early (ends : Bool → Sigterm → π → Bool) : ModuleEvent ι → State ι σ π → Bool
  | .thread i timedOut, c =>
      match (c.threads i).phase with
      | .code p => ends timedOut (c.threads i).sigterm p && c.shared.exit.any (·.names i)
      | _ => false
  | _, _ => false

/-- What a step of the code shows, by the module's data, the signal and the point that it is
taken from. -/
def shows {κ : Type*} (f : σ → Sigterm → π → Option κ) : ModuleEvent ι → State ι σ π → Option κ
  | .thread i _, c =>
      match (c.threads i).phase with
      | .code p => f c.shared.data (c.threads i).sigterm p
      | _ => none
  | _, _ => none

/-! ## One step -/

variable {M} {c c' : State ι σ π} {e : ModuleEvent ι}

section Shows
variable {κ : Type*} {f : σ → Sigterm → π → Option κ} {i : ι} {b : Bool}

omit [DecidableEq ι] in
theorem shows_of_phase {p : π} (h : (c.threads i).phase = .code p) :
    shows f (.thread i b) c = f c.shared.data (c.threads i).sigterm p := by
  simp only [shows, h]

omit [DecidableEq ι] in
theorem shows_of_out (h : (c.threads i).inCode = false) : shows f (.thread i b) c = none := by
  cases hphase : (c.threads i).phase with
  | code p =>
      rw [Kthread.inCode, hphase] at h
      cases h
  | complete | doExit | ended => simp only [shows, hphase]

end Shows

omit [DecidableEq ι] in
/-- **A step of a thread** leaves the unload alone, and raises the count if the thread completes. -/
theorem thread_spec {i : ι} {timedOut : Bool} {m m' : ModuleMem ι σ} {t t' : Kthread π}
    (h : M.thread i timedOut m t = some (m', t')) :
    m'.exit = m.exit ∧ m'.done + t'.incomplete = m.done + t.incomplete := by
  obtain ⟨phase, g⟩ := t
  cases phase with
  | code p =>
      obtain ⟨⟨data, g', p'⟩, -, heq⟩ := Option.map_eq_some_iff.mp h
      cases heq
      cases p' <;> exact ⟨rfl, rfl⟩
  | complete | doExit =>
      cases h
      exact ⟨rfl, rfl⟩
  | ended => cases h

omit [DecidableEq ι] in
/-- A step of the code, or one behind it, which leaves the data alone. -/
theorem thread_cases {i : ι} {timedOut : Bool} {m m' : ModuleMem ι σ} {t t' : Kthread π}
    (h : M.thread i timedOut m t = some (m', t')) :
    (∃ p r, t.phase = .code p ∧ M.code i timedOut m.data t.sigterm p = some r
      ∧ m'.data = r.1 ∧ t' = ⟨r.2.2.elim .complete .code, r.2.1⟩)
    ∨ m'.data = m.data ∧ t.inCode = false ∧ t'.inCode = false := by
  obtain ⟨phase, g⟩ := t
  cases phase with
  | code p =>
      obtain ⟨r, hr, heq⟩ := Option.map_eq_some_iff.mp h
      cases heq
      exact .inl ⟨p, r, rfl, hr, rfl, rfl⟩
  | complete | doExit =>
      cases h
      exact .inr ⟨rfl, rfl, rfl⟩
  | ended => cases h

/-- Sending the signal leaves every thread where it is. -/
theorem signal_spec {i : ι} {m : ModuleMem ι σ}
    (h : c.step (fun _ t => some (m, t.signal)) i = some c') :
    c'.shared = m ∧ ∀ j, (c'.threads j).phase = (c.threads j).phase := by
  obtain ⟨m', t', hstep, rfl⟩ := Conf.step_eq_some.mp h
  cases hstep
  refine ⟨rfl, fun j => ?_⟩
  by_cases hj : j = i
  · subst hj
    simp
  · simp [hj]

/-- **A call of the unload** leaves every thread where it is; a wait takes one from the count. -/
theorem modExit_spec (h : modExit c = some c') :
    (∀ j, (c'.threads j).phase = (c.threads j).phase) ∧ c'.shared.data = c.shared.data
      ∧ ∃ call, c.shared.exit = call :: c'.shared.exit
        ∧ c.shared.done = c'.shared.done + call.waits.toNat := by
  unfold modExit at h
  split at h
  case h_1 => cases h
  case h_2 i calls hexit =>
    cases h
    exact ⟨fun _ => rfl, rfl, _, hexit, rfl⟩
  case h_3 i calls hexit =>
    obtain ⟨hmem, hphase⟩ := signal_spec (m := { c.shared with exit := calls }) h
    rw [hmem]
    exact ⟨hphase, rfl, _, hexit, rfl⟩
  case h_4 calls hexit =>
    obtain ⟨d, hd, rfl⟩ := Option.map_eq_some_iff.mp h
    exact ⟨fun _ => rfl, rfl, _, hexit, semWait_eq_some.mp hd⟩

/-- The calls of the unload become fewer by those that it makes. -/
theorem exit_step (h : M.next e c = some c') :
    c'.shared.exit = c.shared.exit ∨
      e = .modExit ∧ ∃ call, c.shared.exit = call :: c'.shared.exit := by
  cases e with
  | thread i b => exact .inl (thread_spec (Conf.step_mover h)).1
  | sigterm i => exact .inl (congrArg ModuleMem.exit (signal_spec h).1)
  | modExit =>
      obtain ⟨-, -, call, hexit, -⟩ := modExit_spec h
      exact .inr ⟨rfl, call, hexit⟩

/-! ## Ended threads -/

/-- There is still a call to make that names thread `i`. -/
def Named (c : State ι σ π) (i : ι) : Prop := ∃ call ∈ c.shared.exit, call.names i = true

/-- The unload passes on a thread that has ended. -/
def late (e : ModuleEvent ι) (c : State ι σ π) : Bool := passes e c = some false

/-- A thread that is named later on is named now. -/
theorem named_of_step (h : M.next e c = some c') {i : ι} (hnamed : Named c' i) : Named c i := by
  obtain ⟨call, hmem, hnames⟩ := hnamed
  rcases exit_step h with hexit | ⟨-, call', hexit⟩
  · exact ⟨call, hexit ▸ hmem, hnames⟩
  · exact ⟨call, hexit ▸ List.mem_cons_of_mem call' hmem, hnames⟩

/-- A call that is late names a thread that has ended. -/
theorem late_spec (h : late e c = true) : ∃ i, Named c i ∧ (c.threads i).alive = false := by
  cases e with
  | thread i b => simp [late, passes] at h
  | sigterm i => simp [late, passes] at h
  | modExit =>
      cases hexit : c.shared.exit with
      | nil => simp [late, passes, hexit] at h
      | cons call calls =>
          cases call with
          | taskPid i | killPid i =>
              refine ⟨i, ⟨_, hexit ▸ List.mem_cons_self, by simp [ExitCall.names]⟩, ?_⟩
              simpa [late, passes, hexit] using h
          | waitForCompletion => simp [late, passes, hexit] at h

/-- A run passes on living threads only if none of its calls is late. -/
theorem late_eq_zero_iff {ls : List (ModuleEvent ι)} (h : M.system.Reaches ls c) :
    M.system.count late ls = 0 ↔ ∀ b ∈ M.system.trace passes ls M.start, b = true := by
  refine System.tally_eq_zero_iff_forall ?_ h
  intro e c
  cases hpass : passes e c with
  | none => simp [late, hpass]
  | some b => cases b <;> simp [late, hpass]

section Waits
variable {W : π → Prop} {ends : Bool → Sigterm → π → Bool}

/-- Every thread that is still to be named stands at one of the points `W` of its code. -/
def Waiting (W : π → Prop) (c : State ι σ π) : Prop :=
  ∀ i, Named c i → ∃ p, (c.threads i).phase = .code p ∧ W p

theorem not_late (hc : Waiting W c) : late e c = false := by
  rw [Bool.eq_false_iff]
  intro hlate
  obtain ⟨i, hnamed, hended⟩ := late_spec hlate
  obtain ⟨p, hphase, -⟩ := hc i hnamed
  rw [Kthread.alive, hphase] at hended
  cases hended

/-- **One step**: where the code leaves the points `W` only by leaving its last wait, a thread that
does not leave it too early is still at one of them. -/
theorem waiting_step
    (hcode : ∀ {i b s g p r}, W p → M.code i b s g p = some r → ends b g p = false →
      ∃ q, r.2.2 = some q ∧ W q)
    (hc : Waiting W c) (h : M.next e c = some c') (hearly : early ends e c = false) :
    Waiting W c' := by
  intro i hnamed
  have hbefore := named_of_step h hnamed
  obtain ⟨p, hphase, hp⟩ := hc i hbefore
  have hsame : (c'.threads i).phase = (c.threads i).phase →
      ∃ p, (c'.threads i).phase = .code p ∧ W p := by
    intro heq
    exact ⟨p, heq.trans hphase, hp⟩
  cases e with
  | thread j b =>
      by_cases hj : i = j
      · subst hj
        rcases thread_cases (Conf.step_mover h) with ⟨p', r, hphase', hr, -, hmover⟩ | ⟨-, hout, -⟩
        · cases hphase.symm.trans hphase'
          obtain ⟨call, hmem, hnames⟩ := hbefore
          have hends : ends b (c.threads i).sigterm p = false := by
            have hany : c.shared.exit.any (·.names i) = true :=
              List.any_eq_true.mpr ⟨call, hmem, hnames⟩
            simpa only [early, hphase, hany, Bool.and_true] using hearly
          obtain ⟨q, hq, hWq⟩ := hcode hp hr hends
          exact ⟨q, by rw [hmover, hq]; rfl, hWq⟩
        · rw [Kthread.inCode, hphase] at hout
          cases hout
      · exact hsame (congrArg Kthread.phase (Conf.step_threads_ne h hj))
  | sigterm j => exact hsame ((signal_spec h).2 i)
  | modExit => exact hsame ((modExit_spec h).1 i)

/-- **In time**: a run in which no thread leaves its last wait before the last call that names it
passes on living threads only. -/
theorem all_alive_of_not_early (hentry : W M.entry)
    (hcode : ∀ {i b s g p r}, W p → M.code i b s g p = some r → ends b g p = false →
      ∃ q, r.2.2 = some q ∧ W q)
    {ls : List (ModuleEvent ι)} (h : M.system.Reaches ls c)
    (hearly : M.system.count (early ends) ls = 0) :
    ∀ b ∈ M.system.trace passes ls M.start, b = true := by
  rw [← late_eq_zero_iff h]
  have hstart : Waiting W M.start := fun _ _ => ⟨M.entry, rfl, hentry⟩
  refine Nat.le_zero.mp (System.tally_le_of_budget (b := fun _ => 0) ?_ hstart h hearly)
  intro e c c' hc hnext he
  rw [not_late hc]
  exact ⟨waiting_step hcode hc hnext he, Nat.le_refl 0⟩

end Waits

variable {ls : List (ModuleEvent ι)}

/-! ## Completions -/

section Completions
variable [Fintype ι]

/-- **The books of the completion**: the threads that have not completed, and the completions
that nobody has waited for, are together those that the unload has still to wait for. -/
def Books (c : State ι σ π) : Prop :=
  c.shared.done + total Kthread.incomplete c.threads = c.shared.exit.countP ExitCall.waits

omit [DecidableEq ι] in
theorem books_start (hwaits : M.exit.countP ExitCall.waits = Fintype.card ι) : Books M.start := by
  rw [Books, start, hwaits, total, Nat.zero_add]
  exact Finset.card_eq_sum_ones Finset.univ |>.symm

theorem books_step (hc : Books c) (h : M.next e c = some c') : Books c' := by
  have hsame : (∀ j, (c'.threads j).phase = (c.threads j).phase) →
      total Kthread.incomplete c'.threads = total Kthread.incomplete c.threads := by
    intro hphase
    exact total_congr_of_threads fun j => Kthread.incomplete_congr (hphase j)
  unfold Books at hc ⊢
  cases e with
  | thread i b =>
      obtain ⟨hexit, hlaw⟩ := thread_spec (Conf.step_mover h)
      rw [Conf.step_total (g := ModuleMem.done) h hlaw, hexit]
      exact hc
  | sigterm i =>
      obtain ⟨hmem, hphase⟩ := signal_spec h
      rw [hmem, hsame hphase]
      exact hc
  | modExit =>
      obtain ⟨hphase, -, call, hexit, hdone⟩ := modExit_spec h
      rw [hexit, List.countP_cons, hdone] at hc
      rw [hsame hphase]
      cases call <;> simp [ExitCall.waits] at hc ⊢ <;> omega

/-- **Unload**: a module that waits as often as it has threads has unloaded only after all of
them have completed. -/
theorem completed_of_returned (hwaits : M.exit.countP ExitCall.waits = Fintype.card ι)
    (h : M.system.Reaches ls c) (hret : c.shared.exit = []) (i : ι) :
    (c.threads i).completed = true := by
  have hI : M.system.Inductive Books := ⟨books_start hwaits, books_step⟩
  have hbooks : Books c := hI.reachable h.reachable
  rw [Books, hret, List.countP_nil, Nat.add_eq_zero_iff] at hbooks
  have hle := le_total Kthread.incomplete c.threads i
  rw [hbooks.2] at hle
  exact Kthread.completed_of_incomplete (Nat.le_zero.mp hle)

end Completions

/-! ## Two codes for one module -/

section Erase
variable {ρ : Type*} {A : KernelModule ι σ ρ} (f : π → ρ) (silent : π → Bool)

/-- The threads, each at the point `f` of the other code. -/
def erase (c : State ι σ π) : State ι σ ρ := ⟨c.shared, fun i => (c.threads i).map f⟩

/-- The steps that are steps of the other module: all but those from `silent` points. -/
def visible (e : ModuleEvent ι) (c : State ι σ π) : Option (ModuleEvent ι) :=
  match e with
  | .thread i _ =>
      match (c.threads i).phase with
      | .code p => if silent p then none else some e
      | _ => some e
  | _ => some e

variable {f silent}

theorem erase_update {m : ModuleMem ι σ} {i : ι} {t : Kthread π} :
    erase f ⟨m, Function.update c.threads i t⟩
      = ⟨m, Function.update (erase f c).threads i (t.map f)⟩ := by
  rw [erase, Conf.mk.injEq]
  refine ⟨rfl, ?_⟩
  funext j
  by_cases hj : j = i
  · subst hj
    simp
  · simp [hj, erase]

theorem signal_erase {i : ι} {m : ModuleMem ι σ}
    (h : c.step (fun _ t => some (m, t.signal)) i = some c') :
    (erase f c).step (fun _ t => some (m, t.signal)) i = some (erase f c') := by
  obtain ⟨m', t', hstep, rfl⟩ := Conf.step_eq_some.mp h
  cases hstep
  refine Conf.step_eq_some.mpr ⟨_, _, rfl, ?_⟩
  rw [erase_update, erase, Kthread.map_signal]

theorem modExit_erase (h : modExit c = some c') : modExit (erase f c) = some (erase f c') := by
  unfold modExit at h ⊢
  cases hexit : c.shared.exit with
  | nil =>
      rw [hexit] at h
      cases h
  | cons call calls =>
      have hexit' : (erase f c).shared.exit = call :: calls := hexit
      rw [hexit] at h
      rw [hexit']
      cases call with
      | taskPid i =>
          cases h
          rfl
      | killPid i => exact signal_erase (m := { c.shared with exit := calls }) h
      | waitForCompletion =>
          obtain ⟨d, hd, rfl⟩ := Option.map_eq_some_iff.mp h
          exact Option.map_eq_some_iff.mpr ⟨d, hd, rfl⟩

/-- **From the code to the module**: if a step of the code from a silent point changes nothing
and goes to one with the same `f`, and any other step of the code is one of the other code,
steps of the module are steps of the other module, or silent. -/
theorem next_erase
    (hsilent : ∀ {i b p r}, (c.threads i).phase = .code p → silent p = true →
      M.code i b c.shared.data (c.threads i).sigterm p = some r →
      r.1 = c.shared.data ∧ r.2.1 = (c.threads i).sigterm ∧ r.2.2.map f = some (f p))
    (hcode : ∀ {i b p r}, (c.threads i).phase = .code p → silent p = false →
      M.code i b c.shared.data (c.threads i).sigterm p = some r →
      A.code i b c.shared.data (c.threads i).sigterm (f p) = some (r.1, r.2.1, r.2.2.map f))
    (h : M.next e c = some c') :
    A.system.exec (visible silent e c).toList (erase f c) = some (erase f c') := by
  cases e with
  | sigterm i => exact System.exec_singleton.trans (signal_erase h)
  | modExit => exact System.exec_singleton.trans (modExit_erase h)
  | thread i b =>
      obtain ⟨m, t, hstep, rfl⟩ := Conf.step_eq_some.mp h
      rw [erase_update]
      have hvisible : visible silent (.thread i b) c = some (.thread i b) →
          A.thread i b c.shared ((c.threads i).map f) = some (m, t.map f) →
          A.system.exec (visible silent (.thread i b) c).toList (erase f c)
            = some ⟨m, Function.update (erase f c).threads i (t.map f)⟩ := by
        intro hvisible hthread
        rw [hvisible]
        exact System.exec_singleton.trans (Conf.step_eq_some.mpr ⟨m, t.map f, hthread, rfl⟩)
      cases hphase : (c.threads i).phase with
      | code p =>
          unfold thread at hstep
          rw [hphase] at hstep
          obtain ⟨r, hr, heq⟩ := Option.map_eq_some_iff.mp hstep
          cases hp : silent p with
          | true =>
              obtain ⟨hdata, hsigterm, hpoint⟩ := hsilent hphase hp hr
              obtain ⟨q, hq, hfq⟩ := Option.map_eq_some_iff.mp hpoint
              cases heq
              have hsame : Kthread.map f ⟨r.2.2.elim .complete .code, r.2.1⟩
                  = (erase f c).threads i := by
                rw [hq, hsigterm]
                simp only [erase, Kthread.map, hphase, Option.elim, KthreadPhase.map, hfq]
              rw [visible, hphase, hdata, hsame, Function.update_eq_self]
              simp only [hp]
              rfl
          | false =>
              refine hvisible (by simp [visible, hphase, hp]) ?_
              cases heq
              simp only [thread, Kthread.map, hphase, KthreadPhase.map, hcode hphase hp hr,
                Option.map_some]
              cases r.2.2 <;> rfl
      | complete | doExit =>
          refine hvisible (by simp [visible, hphase]) ?_
          unfold thread at hstep ⊢
          simp only [hphase, Kthread.map, KthreadPhase.map] at hstep ⊢
          cases hstep
          rfl
      | ended =>
          unfold thread at hstep
          rw [hphase] at hstep
          cases hstep

omit [DecidableEq ι] in
/-- What a step shows it shows in the other module, when the silent points show nothing. -/
theorem shows_erase {κ : Type*} {show₁ : σ → Sigterm → π → Option κ}
    {show₂ : σ → Sigterm → ρ → Option κ}
    (hsilent : ∀ {s g p}, silent p = true → show₁ s g p = none)
    (hcode : ∀ {s g p}, silent p = false → show₁ s g p = show₂ s g (f p)) :
    shows show₁ e c = (visible silent e c).bind fun e => shows show₂ e (erase f c) := by
  cases e with
  | sigterm i => rfl
  | modExit => rfl
  | thread i b =>
      cases hphase : (c.threads i).phase with
      | code p =>
          have hmap : ((erase f c).threads i).phase = .code (f p) := by
            simp only [erase, Kthread.map, hphase, KthreadPhase.map]
          rw [shows_of_phase hphase]
          cases hp : silent p with
          | true => simp only [visible, hphase, hp, hsilent hp, if_true, Option.bind_none]
          | false =>
              simp only [visible, hphase, hp, Bool.false_eq_true, if_false, Option.bind_some]
              rw [shows_of_phase hmap, hcode hp]
              rfl
      | complete | doExit | ended =>
          simp only [shows, visible, hphase, Option.bind_some, erase, Kthread.map,
            KthreadPhase.map]

end Erase
end KernelModule
end Interleave
