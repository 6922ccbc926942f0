import CAdvanced.Interleave.System
import CAdvanced.Interleave.WorkItem
import CAdvanced.Mytimer.Statistics

/-!
# Mytimer — Unload

The module of `mytimer.c` with its timer: `timer_func` runs whenever the timer goes off, and
adds it again as its last act; `timer_exit` calls `del_timer_sync`, which takes the timer back
when no `timer_func` is running, and else waits. A step is one statement of `timer_func`; the
times at which the timer may go off are left open, as are `expires` and `data`.

Two levels: what the statements do to the statistics, in whatever order the steps of loading,
unloading and of the timer come, is what whole calls do one after the other.
-/

namespace CAdvanced.Mytimer

open Interleave System

/-- The statements of `timer_func` between the readings of the clocks and `mytimer.expires`. -/
inductive Stmt where
  | cyclesCurr
  | jiffCurr
  | nanosecsCurr
  | printJiffies
  | printCycles
  | cyclesMax
  | cyclesMin
  | jiffMax
  | jiffMin
  | printCurrent
  | printMinimum
  | printMaximum
  | cyclesPrev
  | jiffPrev
  deriving DecidableEq, Repr

/-- These statements, in order. -/
def timerFuncBody : List Stmt :=
  [.cyclesCurr, .jiffCurr, .nanosecsCurr, .printJiffies, .printCycles, .cyclesMax, .cyclesMin,
    .jiffMax, .jiffMin, .printCurrent, .printMinimum, .printMaximum, .cyclesPrev, .jiffPrev]

/-- What one of them does, where `now` are `j` and `cyc`; the `printk`s change nothing. -/
def stmt (jiffiesToNsecs : UInt64 → UInt64) (now : Clocks) (s : Stats) : Stmt → Stats
  | .cyclesCurr => { s with cycles := { s.cycles with curr := now.cycles - s.cycles.prev } }
  | .jiffCurr => { s with jiff := { s.jiff with curr := now.jiffies - s.jiff.prev } }
  | .nanosecsCurr => { s with nanosecs := { s.nanosecs with curr := jiffiesToNsecs s.jiff.curr } }
  | .cyclesMax =>
      if s.cycles.curr > s.cycles.max then
        { s with cycles := { s.cycles with max := s.cycles.curr } }
      else s
  | .cyclesMin =>
      if s.cycles.curr < s.cycles.min then
        { s with cycles := { s.cycles with min := s.cycles.curr } }
      else s
  | .jiffMax =>
      if s.jiff.curr > s.jiff.max then
        { s with
          jiff := { s.jiff with max := s.jiff.curr }
          nanosecs := { s.nanosecs with max := s.nanosecs.curr } }
      else s
  | .jiffMin =>
      if s.jiff.curr < s.jiff.min then
        { s with
          jiff := { s.jiff with min := s.jiff.curr }
          nanosecs := { s.nanosecs with min := s.nanosecs.curr } }
      else s
  | .cyclesPrev => { s with cycles := { s.cycles with prev := now.cycles } }
  | .jiffPrev => { s with jiff := { s.jiff with prev := now.jiffies } }
  | .printJiffies | .printCycles | .printCurrent | .printMinimum | .printMaximum => s

/-- Where `timer_func` stands; between the readings and `expires`, with what it has read and
the statements that are left. -/
inductive Pc where
  | getCycles
  | readJiffies (cyc : UInt64)
  | body (now : Clocks) (rest : List Stmt)
  | addTimer
  | ret
  deriving DecidableEq, Repr

/-- Where the thread of `insmod` and `rmmod` stands; behind `del_timer_sync` with what that
has returned, which says whether "Closed active timer." is printed. -/
inductive Phase where
  | init
  | initRet
  | live
  | exitRet (closed : Bool)
  | gone (closed : Bool)
  deriving DecidableEq, Repr

/-- The statistics, the timer, the module, and whether `add_timer` was called for a timer
that was pending, which is a `BUG`. -/
structure State where
  stats : Stats
  timer : WorkItem Pc
  phase : Phase
  bug : Bool
  deriving DecidableEq, Repr

/-- `add_timer`. -/
def State.addTimer (s : State) : State :=
  { s with timer := s.timer.schedule.2, bug := s.bug || s.timer.pending }

/-- One step of the thread that loads and unloads the module. Before `timer_init` calls
`add_timer` nobody else runs, and it is one step up to there. -/
def moduleThread (now : Clocks) (s : State) : Option State :=
  match s.phase with
  | .init => some { { s with stats := timerInit now }.addTimer with phase := .initRet }
  | .initRet => some { s with phase := .live }
  | .live => s.timer.cancelSync.map fun r => { s with timer := r.2, phase := .exitRet r.1 }
  | .exitRet closed => some { s with phase := .gone closed }
  | .gone _ => none

/-- `timer_func` goes on at `p`. -/
def State.goto (s : State) (p : Option Pc) : State :=
  { s with timer := { s.timer with running := p } }

/-- One step of the timer: it goes off, or `timer_func` goes on. -/
def timerThread (jiffiesToNsecs : UInt64 → UInt64) (now : Clocks) (s : State) : Option State :=
  match s.timer.running with
  | none => (s.timer.begin .getCycles).map fun w => { s with timer := w }
  | some .getCycles => some (s.goto (some (.readJiffies now.cycles)))
  | some (.readJiffies cyc) => some (s.goto (some (.body ⟨now.jiffies, cyc⟩ timerFuncBody)))
  | some (.body c (a :: rest)) =>
      some ({ s with stats := stmt jiffiesToNsecs c s.stats a }.goto (some (.body c rest)))
  | some (.body _ []) => some (s.goto (some .addTimer))
  | some .addTimer => some (s.addTimer.goto (some .ret))
  | some .ret => some (s.goto none)

/-- Who takes the next step. -/
inductive Actor where
  | module
  | timer
  deriving DecidableEq, Repr

def next (jiffiesToNsecs : UInt64 → UInt64) : Actor × Clocks → State → Option State
  | (.module, now), s => moduleThread now s
  | (.timer, now), s => timerThread jiffiesToNsecs now s

/-- The module before it is loaded; its records are those of the image. -/
def start : State := ⟨⟨initialTimes, initialTimes, initialTimes⟩, .fresh, .init, false⟩

/-- The module with its timer. A label brings what the clocks say. -/
def mytimer (jiffiesToNsecs : UInt64 → UInt64) : System State (Actor × Clocks) :=
  ⟨start, next jiffiesToNsecs⟩

variable {jiffiesToNsecs : UInt64 → UInt64} {s t : State}

/-! ## The timer -/

/-- What holds of the timer: as long as the module is there it is pending or on its way to
that, but not both, and in the end it is idle. -/
structure Inv (s : State) : Prop where
  bug : s.bug = false
  once : s.timer.pending = true → s.timer.running = none ∨ s.timer.running = some .ret
  phase : match s.phase with
    | .init => s.timer = .fresh
    | .initRet | .live => s.timer.alive .ret = true
    | .exitRet closed | .gone closed => closed = true ∧ s.timer.Idle

theorem inv_start : Inv start := ⟨rfl, by simp [start, WorkItem.fresh], rfl⟩

theorem Inv.moduleThread {now : Clocks} (h : Inv s) (hstep : moduleThread now s = some t) :
    Inv t := by
  have hphase := h.phase
  unfold Mytimer.moduleThread at hstep
  cases hp : s.phase with
  | init =>
      rw [hp] at hphase hstep
      have hfresh : s.timer = .fresh := hphase
      cases hstep
      refine ⟨?_, fun _ => .inl ?_, ?_⟩
      · simp [State.addTimer, h.bug, hfresh, WorkItem.fresh]
      · simp [State.addTimer, hfresh, WorkItem.fresh, WorkItem.schedule]
      · simp [State.addTimer, WorkItem.schedule, WorkItem.alive]
  | initRet =>
      rw [hp] at hphase hstep
      cases hstep
      exact ⟨h.bug, h.once, hphase⟩
  | live =>
      rw [hp] at hphase hstep
      obtain ⟨⟨closed, w⟩, hw, rfl⟩ := Option.map_eq_some_iff.mp hstep
      obtain ⟨hrunning, rfl, rfl⟩ := WorkItem.cancelSync_eq_some.mp hw
      have halive : s.timer.alive .ret = true := hphase
      refine ⟨h.bug, fun hpending => absurd hpending Bool.false_ne_true, ⟨?_, rfl, rfl⟩⟩
      simpa [WorkItem.alive, WorkItem.before, hrunning] using halive
  | exitRet closed =>
      rw [hp] at hphase hstep
      cases hstep
      exact ⟨h.bug, h.once, hphase⟩
  | gone closed =>
      rw [hp] at hstep
      cases hstep

/-- A timer that runs or is pending is one of a module that is there. -/
theorem Inv.there (h : Inv s) (htimer : ¬ s.timer.Idle) : s.phase = .initRet ∨ s.phase = .live := by
  have hphase := h.phase
  cases hp : s.phase with
  | init =>
      rw [hp] at hphase
      have hfresh : s.timer = .fresh := hphase
      exact absurd (hfresh ▸ ⟨rfl, rfl⟩) htimer
  | initRet => exact .inl rfl
  | live => exact .inr rfl
  | exitRet closed | gone closed =>
      rw [hp] at hphase
      exact absurd hphase.2 htimer

theorem inv_of_alive (hthere : s.phase = .initRet ∨ s.phase = .live) (hbug : s.bug = false)
    (honce : s.timer.pending = true → s.timer.running = none ∨ s.timer.running = some .ret)
    (halive : s.timer.alive .ret = true) : Inv s := by
  refine ⟨hbug, honce, ?_⟩
  rcases hthere with hp | hp
  · rw [hp]
    exact halive
  · rw [hp]
    exact halive

/-- A `timer_func` that has not added the timer yet is on its way to that. -/
theorem inv_of_running {p : Pc} (hthere : s.phase = .initRet ∨ s.phase = .live)
    (hbug : s.bug = false) (hrun : s.timer.running = some p) (hp : p ≠ .ret)
    (hpending : s.timer.pending = false) : Inv s := by
  refine inv_of_alive hthere hbug (fun htrue => ?_) ?_
  · rw [hpending] at htrue
    cases htrue
  · simpa [WorkItem.alive, WorkItem.before, hrun] using .inr hp

/-- **One step of the timer** leaves the module where it is, and the timer alive. -/
theorem Inv.timerThread {now : Clocks} (h : Inv s)
    (hstep : timerThread jiffiesToNsecs now s = some t) : Inv t ∧ t.phase = s.phase := by
  unfold Mytimer.timerThread at hstep
  cases hrun : s.timer.running with
  | none =>
      rw [hrun] at hstep
      obtain ⟨w, hw, rfl⟩ := Option.map_eq_some_iff.mp hstep
      obtain ⟨hpending, -, rfl⟩ := WorkItem.begin_eq_some.mp hw
      have hthere := h.there fun hidle => by
        rw [hidle.1] at hpending
        cases hpending
      exact ⟨inv_of_running hthere h.bug rfl (by decide) rfl, rfl⟩
  | some p =>
      have hthere := h.there fun hidle => by
        rw [hidle.2] at hrun
        cases hrun
      have hnot : p ≠ .ret → s.timer.pending = false := by
        intro hp
        by_contra hpending
        rcases h.once ((Bool.not_eq_false _).mp hpending) with hnone | hret
        · cases hrun.symm.trans hnone
        · exact hp (Option.some.inj (hrun.symm.trans hret))
      rw [hrun] at hstep
      cases p with
      | getCycles | readJiffies cyc =>
          cases hstep
          exact ⟨inv_of_running hthere h.bug rfl (by simp) (hnot (by simp)), rfl⟩
      | body c rest =>
          cases rest with
          | nil | cons a rest =>
              cases hstep
              exact ⟨inv_of_running hthere h.bug rfl (by simp) (hnot (by simp)), rfl⟩
      | addTimer =>
          cases hstep
          have hpending := hnot (by decide)
          refine ⟨inv_of_alive hthere ?_ (fun _ => .inr rfl) rfl, rfl⟩
          show (s.bug || s.timer.pending) = false
          rw [h.bug, hpending]
          rfl
      | ret =>
          cases hstep
          refine ⟨inv_of_alive hthere h.bug (fun _ => .inl rfl) ?_, rfl⟩
          -- it has been added before, and is pending since then
          have halive : s.timer.alive .ret = true := by
            have hphase := h.phase
            rcases hthere with hp | hp
            · rwa [hp] at hphase
            · rwa [hp] at hphase
          simpa [WorkItem.alive, WorkItem.before, State.goto, hrun] using halive

theorem inv_inductive : (mytimer jiffiesToNsecs).Inductive Inv where
  init := inv_start
  step := by
    rintro ⟨actor, now⟩ s t h hstep
    cases actor with
    | module => exact h.moduleThread hstep
    | timer => exact (h.timerThread hstep).1

/-! ## Unloading -/

variable (jiffiesToNsecs)

/-- When the module is gone nobody moves. -/
theorem Inv.over (h : Inv s) {closed : Bool} (hgone : s.phase = .gone closed) :
    closed = true ∧ s.timer.Idle ∧ ¬ (mytimer jiffiesToNsecs).CanMove s := by
  have hphase := h.phase
  rw [hgone] at hphase
  obtain ⟨hclosed, hidle⟩ := hphase
  refine ⟨hclosed, hidle, ?_⟩
  rintro ⟨⟨actor, now⟩, t, hstep⟩
  cases actor with
  | module =>
      have hmodule : Mytimer.moduleThread now s = some t := hstep
      rw [Mytimer.moduleThread, hgone] at hmodule
      cases hmodule
  | timer =>
      have htimer : Mytimer.timerThread jiffiesToNsecs now s = some t := hstep
      rw [Mytimer.timerThread, hidle.2] at htimer
      simp [hidle.begin_eq_none] at htimer

/-- How many steps a `timer_func` has left. -/
def Pc.left : Pc → Nat
  | .getCycles => timerFuncBody.length + 5
  | .readJiffies _ => timerFuncBody.length + 4
  | .body _ rest => rest.length + 3
  | .addTimer => 2
  | .ret => 1

theorem timerThread_left (now : Clocks) {p : Pc} (hrun : s.timer.running = some p) :
    ∃ t, timerThread jiffiesToNsecs now s = some t
      ∧ ∀ q, t.timer.running = some q → q.left < p.left := by
  unfold Mytimer.timerThread
  rw [hrun]
  cases p with
  | body c rest =>
      cases rest with
      | nil => exact ⟨_, rfl, fun q hq => by cases hq; simp [Pc.left]⟩
      | cons a rest => exact ⟨_, rfl, fun q hq => by cases hq; simp [Pc.left]⟩
  | ret => exact ⟨_, rfl, fun q hq => by cases hq⟩
  | _ => exact ⟨_, rfl, fun q hq => by cases hq; simp [Pc.left]⟩

/-- **`timer_func` comes to its end.** -/
theorem exists_returned (h : Inv s) : ∃ ls t, (mytimer jiffiesToNsecs).exec ls s = some t
    ∧ Inv t ∧ t.phase = s.phase ∧ t.timer.running = none := by
  have hleft : ∀ n (s : State), Inv s → (∀ p, s.timer.running = some p → p.left ≤ n) →
      ∃ ls t, (mytimer jiffiesToNsecs).exec ls s = some t
        ∧ Inv t ∧ t.phase = s.phase ∧ t.timer.running = none := by
    intro n
    induction n with
    | zero =>
        intro s h hle
        refine ⟨[], s, rfl, h, rfl, ?_⟩
        cases hrun : s.timer.running with
        | none => rfl
        | some p =>
            have := hle p hrun
            cases p <;> simp [Pc.left] at this
    | succ n ih =>
        intro s h hle
        cases hrun : s.timer.running with
        | none => exact ⟨[], s, rfl, h, rfl, hrun⟩
        | some p =>
            obtain ⟨t, hstep, hless⟩ := timerThread_left jiffiesToNsecs ⟨0, 0⟩ hrun
            obtain ⟨ht, hphase⟩ := h.timerThread hstep
            obtain ⟨ls, u, hu, hinv, hphase', hnone⟩ := ih t ht fun q hq =>
              Nat.le_of_lt_succ (Nat.lt_of_lt_of_le (hless q hq) (hle p hrun))
            exact ⟨(.timer, ⟨0, 0⟩) :: ls, u, exec_cons_eq_some.mpr ⟨t, hstep, hu⟩, hinv,
              hphase'.trans hphase, hnone⟩
  cases hrun : s.timer.running with
  | none => exact ⟨[], s, rfl, h, rfl, hrun⟩
  | some p =>
      refine hleft p.left s h fun q hq => ?_
      rw [Option.some.inj (hq.symm.trans hrun)]

/-- From `s` the module can be unloaded, and has closed a timer that was active. -/
def CanUnload (s : State) : Prop :=
  ∃ ls t, (mytimer jiffiesToNsecs).exec ls s = some t ∧ t.phase = .gone true

variable {jiffiesToNsecs}

theorem CanUnload.of_exec {ls : List (Actor × Clocks)}
    (hrun : (mytimer jiffiesToNsecs).exec ls s = some t) (h : CanUnload jiffiesToNsecs t) :
    CanUnload jiffiesToNsecs s := by
  obtain ⟨ls', u, hu, hgone⟩ := h
  exact ⟨ls ++ ls', u, exec_append_eq_some.mpr ⟨t, hrun, hu⟩, hgone⟩

theorem CanUnload.of_moduleThread (hstep : moduleThread ⟨0, 0⟩ s = some t)
    (h : CanUnload jiffiesToNsecs t) : CanUnload jiffiesToNsecs s := by
  have hrun : (mytimer jiffiesToNsecs).exec [(.module, ⟨0, 0⟩)] s = some t :=
    exec_singleton.trans hstep
  exact h.of_exec hrun

theorem Inv.canUnload_exitRet (h : Inv s) {closed : Bool} (hp : s.phase = .exitRet closed) :
    CanUnload jiffiesToNsecs s := by
  have hphase := h.phase
  rw [hp] at hphase
  have hstep : Mytimer.moduleThread ⟨0, 0⟩ s = some { s with phase := .gone closed } := by
    rw [Mytimer.moduleThread, hp]
  exact .of_moduleThread hstep ⟨[], _, rfl, by rw [hphase.1]⟩

/-- `timer_exit` waits until `timer_func` has returned. -/
theorem Inv.canUnload_live (h : Inv s) (hp : s.phase = .live) : CanUnload jiffiesToNsecs s := by
  obtain ⟨ls, t, hrun, ht, hphase, hnone⟩ := exists_returned jiffiesToNsecs h
  have hstep : Mytimer.moduleThread ⟨0, 0⟩ t
      = some { t with timer := ⟨false, none⟩, phase := .exitRet t.timer.pending } := by
    rw [Mytimer.moduleThread, hphase, hp]
    dsimp only
    rw [WorkItem.cancelSync_eq_some.mpr ⟨hnone, rfl, rfl⟩]
    rfl
  exact .of_exec hrun (.of_moduleThread hstep ((ht.moduleThread hstep).canUnload_exitRet rfl))

/-- **The module can be unloaded** from wherever it is. -/
theorem Inv.canUnload (h : Inv s) : CanUnload jiffiesToNsecs s := by
  have hinitRet : ∀ {s}, Inv s → s.phase = .initRet → CanUnload jiffiesToNsecs s := by
    intro s h hp
    have hstep : Mytimer.moduleThread ⟨0, 0⟩ s = some { s with phase := .live } := by
      rw [Mytimer.moduleThread, hp]
    exact .of_moduleThread hstep ((h.moduleThread hstep).canUnload_live rfl)
  cases hp : s.phase with
  | init =>
      have hstep : Mytimer.moduleThread ⟨0, 0⟩ s
          = some { { s with stats := timerInit ⟨0, 0⟩ }.addTimer with phase := .initRet } := by
        rw [Mytimer.moduleThread, hp]
      exact .of_moduleThread hstep (hinitRet (h.moduleThread hstep) rfl)
  | initRet => exact hinitRet h hp
  | live => exact h.canUnload_live hp
  | exitRet closed => exact h.canUnload_exitRet hp
  | gone closed =>
      obtain ⟨hclosed, -⟩ := h.over jiffiesToNsecs hp
      exact ⟨[], s, rfl, by rw [hp, hclosed]⟩

/-! ## The statistics -/

/-- The clocks as `timer_init` and the calls of `timer_func` read them. -/
def clocks : Actor × Clocks → State → Option Clocks
  | (.module, now), s => if s.phase = .init then some now else none
  | (.timer, now), s =>
      match s.timer.running with
      | some (.readJiffies cyc) => some ⟨now.jiffies, cyc⟩
      | _ => none

/-- Whole calls, the first of `timer_init` and the others of `timer_func`. -/
def wholeCalls (jiffiesToNsecs : UInt64 → UInt64) : System (Option Stats) Clocks :=
  ⟨none, fun now a => some (some (match a with
    | none => timerInit now
    | some st => timerFunc jiffiesToNsecs st now))⟩

/-- What the statements that are left of a call will have made of the statistics. -/
def State.ahead (jiffiesToNsecs : UInt64 → UInt64) (s : State) : Stats :=
  match s.timer.running with
  | some (.body now rest) => rest.foldl (stmt jiffiesToNsecs now) s.stats
  | _ => s.stats

/-- **All statements together** are what a call does. -/
theorem foldl_stmt (now : Clocks) (s : Stats) :
    timerFuncBody.foldl (stmt jiffiesToNsecs now) s = timerFunc jiffiesToNsecs s now := by
  simp only [timerFuncBody, List.foldl_cons, List.foldl_nil, stmt, timerFunc]
  split_ifs <;> rfl

/-- The calls so far are `a`, when the one that is running is counted as soon as it has read
the clocks. -/
def Counted (jiffiesToNsecs : UInt64 → UInt64) (s : State) (a : Option Stats) : Prop :=
  match s.phase with
  | .init => a = none ∧ s.timer = .fresh
  | _ => a = some (s.ahead jiffiesToNsecs)

theorem counted_iff {a : Option Stats} (hp : s.phase ≠ .init) :
    Counted jiffiesToNsecs s a ↔ a = some (s.ahead jiffiesToNsecs) := by
  unfold Counted
  split
  case h_1 hinit => exact absurd hinit hp
  case h_2 => exact Iff.rfl

/-- What the thread of the module does to the calls. -/
theorem counted_moduleThread {now : Clocks} {a : Option Stats} (ha : Counted jiffiesToNsecs s a)
    (hstep : moduleThread now s = some t) :
    ∃ b, (wholeCalls jiffiesToNsecs).exec (clocks (.module, now) s).toList a = some b
      ∧ Counted jiffiesToNsecs t b := by
  unfold moduleThread at hstep
  cases hp : s.phase with
  | init =>
      rw [hp] at hstep
      rw [Counted, hp] at ha
      obtain ⟨rfl, hfresh⟩ := ha
      cases hstep
      refine ⟨some (timerInit now), by simp [clocks, hp]; rfl, ?_⟩
      rw [counted_iff (by simp)]
      simp [State.ahead, State.addTimer, hfresh, WorkItem.fresh, WorkItem.schedule]
  | live =>
      have hahead := (counted_iff (by simp [hp])).mp ha
      rw [hp] at hstep
      obtain ⟨⟨closed, w⟩, hw, rfl⟩ := Option.map_eq_some_iff.mp hstep
      obtain ⟨hrunning, rfl, rfl⟩ := WorkItem.cancelSync_eq_some.mp hw
      refine ⟨a, by simp [clocks, hp], ?_⟩
      rw [counted_iff (by simp), hahead]
      simp [State.ahead, hrunning]
  | initRet | exitRet closed =>
      have hahead := (counted_iff (by simp [hp])).mp ha
      rw [hp] at hstep
      cases hstep
      refine ⟨a, by simp [clocks, hp], ?_⟩
      rw [counted_iff (by simp), hahead]
      rfl
  | gone closed =>
      rw [hp] at hstep
      cases hstep

/-- What the timer does to the calls: it counts one when the clocks have been read. -/
theorem counted_timerThread {now : Clocks} {a : Option Stats} (h : Inv s)
    (ha : Counted jiffiesToNsecs s a) (hstep : timerThread jiffiesToNsecs now s = some t) :
    ∃ b, (wholeCalls jiffiesToNsecs).exec (clocks (.timer, now) s).toList a = some b
      ∧ Counted jiffiesToNsecs t b := by
  have hphase := (h.timerThread hstep).2
  have hinit : s.phase ≠ .init := by
    intro hp
    have hfresh := h.phase
    rw [hp] at hfresh
    have htimer : s.timer = .fresh := hfresh
    rw [timerThread, htimer] at hstep
    cases hstep
  have hahead := (counted_iff hinit).mp ha
  have hcounted : ∀ b, Counted jiffiesToNsecs t b ↔ b = some (t.ahead jiffiesToNsecs) :=
    fun b => counted_iff (hphase ▸ hinit)
  unfold timerThread at hstep
  cases hrun : s.timer.running with
  | none =>
      rw [hrun] at hstep
      obtain ⟨w, hw, rfl⟩ := Option.map_eq_some_iff.mp hstep
      obtain ⟨-, -, rfl⟩ := WorkItem.begin_eq_some.mp hw
      refine ⟨a, by simp [clocks, hrun], (hcounted a).mpr ?_⟩
      rw [hahead]
      simp [State.ahead, hrun]
  | some p =>
      rw [hrun] at hstep
      rw [State.ahead, hrun] at hahead
      cases p with
      | readJiffies cyc =>
          cases hstep
          refine ⟨some (timerFunc jiffiesToNsecs s.stats ⟨now.jiffies, cyc⟩), ?_,
            (hcounted _).mpr ?_⟩
          · simp [clocks, hrun, hahead]
            rfl
          · rw [← foldl_stmt]
            rfl
      | body c rest =>
          refine ⟨a, by simp [clocks, hrun], (hcounted a).mpr ?_⟩
          rw [hahead]
          cases rest with
          | nil | cons a rest =>
              cases hstep
              rfl
      | _ =>
          refine ⟨a, by simp [clocks, hrun], (hcounted a).mpr ?_⟩
          rw [hahead]
          cases hstep
          rfl

theorem counted_step {l : Actor × Clocks} {a : Option Stats} (h : Inv s)
    (ha : Counted jiffiesToNsecs s a) (hstep : next jiffiesToNsecs l s = some t) :
    ∃ b, (wholeCalls jiffiesToNsecs).exec (clocks l s).toList a = some b
      ∧ Counted jiffiesToNsecs t b := by
  obtain ⟨actor, now⟩ := l
  cases actor with
  | module => exact counted_moduleThread ha hstep
  | timer => exact counted_timerThread h ha hstep

theorem wholeCalls_exec (calls : List Clocks) (st : Stats) :
    (wholeCalls jiffiesToNsecs).exec calls (some st) = some (some (run jiffiesToNsecs calls st)) := by
  induction calls generalizing st with
  | nil => rfl
  | cons now calls ih => exact exec_cons_eq_some.mpr ⟨_, rfl, ih _⟩

/-- **Unloading is safe, and the statistics are those of whole calls.** However loading,
unloading and the timer take turns, `add_timer` is never called for a pending timer; once
`timer_exit` has returned it has closed an active timer, and nothing runs any more; whenever
no `timer_func` is running the statistics are what whole calls, one after the other, make of
the clocks that were read; and `timer_exit` can always be brought to its end. -/
theorem mytimer_unload {ls : List (Actor × Clocks)} (h : (mytimer jiffiesToNsecs).Reaches ls s) :
    s.bug = false
    ∧ (∀ closed, s.phase = .gone closed →
        closed = true ∧ s.timer.Idle ∧ ¬ (mytimer jiffiesToNsecs).CanMove s)
    ∧ (s.phase ≠ .init → s.timer.running = none → ∃ now calls,
        (mytimer jiffiesToNsecs).trace clocks ls start = now :: calls
          ∧ s.stats = run jiffiesToNsecs calls (timerInit now))
    ∧ CanUnload jiffiesToNsecs s := by
  have hinv := inv_inductive.reachable h.reachable
  refine ⟨hinv.bug, fun _ => hinv.over jiffiesToNsecs, fun hp hnone => ?_, hinv.canUnload⟩
  have hsim : (mytimer jiffiesToNsecs).Simulation (wholeCalls jiffiesToNsecs) clocks
      fun s a => Inv s ∧ Counted jiffiesToNsecs s a := by
    refine ⟨⟨inv_start, rfl, rfl⟩, fun {l s t a} hs hstep => ?_⟩
    obtain ⟨b, hb, hcounted⟩ := counted_step hs.1 hs.2 hstep
    exact ⟨b, hb, inv_inductive.step hs.1 hstep, hcounted⟩
  obtain ⟨a, hexec, -, hcounted⟩ := hsim.exec hsim.init h
  rw [counted_iff hp, State.ahead, hnone] at hcounted
  subst hcounted
  cases htrace : (mytimer jiffiesToNsecs).trace clocks ls start with
  | nil =>
      rw [show (mytimer jiffiesToNsecs).trace clocks ls (mytimer jiffiesToNsecs).init = []
        from htrace] at hexec
      cases hexec
  | cons now calls =>
      rw [show (mytimer jiffiesToNsecs).trace clocks ls (mytimer jiffiesToNsecs).init
        = now :: calls from htrace] at hexec
      obtain ⟨b, hb, hrest⟩ := exec_cons_eq_some.mp hexec
      cases hb
      refine ⟨now, calls, rfl, ?_⟩
      rw [wholeCalls_exec] at hrest
      exact (Option.some.inj (Option.some.inj hrest)).symm

/-- The module is loaded, the timer goes off once, and `timer_exit` comes at once. -/
theorem mytimer_unload_once :
    ∃ s, (mytimer fun j => 4000000 * j).Reaches
        ([(.module, ⟨7, 70⟩), (.module, ⟨7, 71⟩)]
          ++ List.replicate 20 (.timer, ⟨507, 5000⟩) ++ List.replicate 2 (.module, ⟨508, 5100⟩)) s
      ∧ s.bug = false ∧ s.timer.Idle := by
  obtain ⟨s, hrun, hgone⟩ := Option.any_eq_true _ _ |>.mp
    (show (((mytimer fun j => 4000000 * j).exec
        ([(.module, ⟨7, 70⟩), (.module, ⟨7, 71⟩)]
          ++ List.replicate 20 (.timer, ⟨507, 5000⟩) ++ List.replicate 2 (.module, ⟨508, 5100⟩))
        start).any fun s => decide (s.phase = .gone true)) = true by decide +kernel)
  obtain ⟨hbug, hover, -⟩ := mytimer_unload hrun
  exact ⟨s, hrun, hbug, (hover true (of_decide_eq_true hgone)).2.1⟩

end CAdvanced.Mytimer
