import CAdvanced.Interleave.System
import CAdvanced.Interleave.WorkItem

/-!
# Myworkqueue — Model

The module of `myworkqueue.c`: `work_func` measures how long it was delayed, and schedules
itself again as its last act; `init_module` schedules it for the first time and
`cleanup_module` cancels it. A step is one statement of one of them. The conversion
`jiffies_to_nsecs` is the kernel's, and is taken as it is.
-/

namespace CAdvanced.Myworkqueue

open Interleave

/-- `times_t`; the fields are `unsigned long`. -/
structure Times where
  prev : UInt64
  curr : UInt64
  max : UInt64
  min : UInt64
  deriving DecidableEq, Repr, Inhabited

/-- The three blocks behind the static pointers. `init_module` writes through the first two;
the third it leaves as `kmalloc` returns it, which may be NULL. -/
structure Stats where
  jiff : Times
  cycles : Times
  nanosecs : Option Times
  deriving DecidableEq, Repr, Inhabited

/-- What the kernel has for a step: the values of `jiffies` and `get_cycles()`, and the
blocks of the three calls of `kmalloc`, with what is in them, or NULL. -/
structure Env where
  jiffies : UInt64
  cycles : UInt64
  kmalloc : Option Times × Option Times × Option Times
  deriving DecidableEq, Repr

/-- Where `work_func` stands. -/
inductive Pc where
  | cyclesCurr
  | jiffCurr
  | nanosecsCurr
  | cyclesMax
  | cyclesMin
  | jiffMax
  | jiffMin
  | printCurrent
  | printMinimum
  | printMaximum
  | cyclesPrev
  | jiffPrev
  | schedule
  | ret
  deriving DecidableEq, Repr

/-- Where the thread of `insmod` and `rmmod` stands. `init_module` dies when `jiff` or
`cycles` is NULL, and is refused when it could not schedule the work. -/
inductive Phase where
  | init
  | initRet
  | live
  | cleanupRet
  | gone
  | refused
  | died
  deriving DecidableEq, Repr

structure State where
  stats : Stats
  work : WorkItem Pc
  phase : Phase
  deriving DecidableEq, Repr

section Code
variable (jiffiesToNsecs : UInt64 → UInt64)

/-- One statement of `work_func`: the statistics, the item, and where to go on; the
`printk`s show the statistics, and change nothing. The first statement that uses `nanosecs`
kills the worker when the pointer is NULL; behind it there is a block. -/
def workFunc (e : Env) (st : Stats) (w : WorkItem Pc) : Pc → Stats × WorkItem Pc × Option Pc
  | .cyclesCurr =>
      ({ st with cycles := { st.cycles with curr := e.cycles - st.cycles.prev } }, w,
        some .jiffCurr)
  | .jiffCurr =>
      ({ st with jiff := { st.jiff with curr := e.jiffies - st.jiff.prev } }, w,
        some .nanosecsCurr)
  | .nanosecsCurr =>
      match st.nanosecs with
      | none => (st, w, none)
      | some nanosecs =>
          ({ st with nanosecs := some { nanosecs with curr := jiffiesToNsecs st.jiff.curr } }, w,
            some .cyclesMax)
  | .cyclesMax =>
      (if st.cycles.curr > st.cycles.max then
        { st with cycles := { st.cycles with max := st.cycles.curr } } else st, w,
        some .cyclesMin)
  | .cyclesMin =>
      (if st.cycles.curr < st.cycles.min then
        { st with cycles := { st.cycles with min := st.cycles.curr } } else st, w,
        some .jiffMax)
  | .jiffMax =>
      (if st.jiff.curr > st.jiff.max then
        { st with
          jiff := { st.jiff with max := st.jiff.curr }
          nanosecs := st.nanosecs.map fun nanosecs =>
            { nanosecs with max := nanosecs.curr } } else st, w,
        some .jiffMin)
  | .jiffMin =>
      (if st.jiff.curr < st.jiff.min then
        { st with
          jiff := { st.jiff with min := st.jiff.curr }
          nanosecs := st.nanosecs.map fun nanosecs =>
            { nanosecs with min := nanosecs.curr } } else st, w,
        some .printCurrent)
  | .printCurrent => (st, w, some .printMinimum)
  | .printMinimum => (st, w, some .printMaximum)
  | .printMaximum => (st, w, some .cyclesPrev)
  | .cyclesPrev =>
      ({ st with cycles := { st.cycles with prev := e.cycles } }, w, some .jiffPrev)
  | .jiffPrev =>
      ({ st with jiff := { st.jiff with prev := e.jiffies } }, w, some .schedule)
  | .schedule => (st, w.schedule.2, some .ret)
  | .ret => (st, w, none)

/-- The statements of `init_module` before it schedules the work. -/
def initStats (e : Env) : Option Stats :=
  match e.kmalloc with
  | (some jiff, some cycles, nanosecs) =>
      some
        { jiff := { jiff with curr := 0, max := 0, min := 0xFFFFFFFFFFFFFFFF, prev := e.jiffies }
          cycles :=
            { cycles with curr := 0, max := 0, min := 0xFFFFFFFFFFFFFFFF, prev := e.cycles }
          nanosecs := nanosecs }
  | _ => none

/-- `init_module`, up to the test of `retval`. -/
def initModule (e : Env) (s : State) : State :=
  match initStats e with
  | none => { s with phase := .died }
  | some st =>
      { stats := st, work := s.work.schedule.2,
        phase := if s.work.schedule.1 then .initRet else .refused }

/-- One step of the thread that loads and unloads the module; `cleanup_module` cancels and
returns. -/
def moduleThread (e : Env) (s : State) : Option State :=
  match s.phase with
  | .init => some (initModule e s)
  | .initRet => some { s with phase := .live }
  | .live => some { s with work := s.work.cancel.2, phase := .cleanupRet }
  | .cleanupRet => some { s with phase := .gone }
  | .gone | .refused | .died => none

/-- One step of the worker: it takes the item up, or goes on in `work_func`. -/
def worker (e : Env) (s : State) : Option State :=
  match s.work.running with
  | none => (s.work.begin .cyclesCurr).map fun w => { s with work := w }
  | some p =>
      let r := workFunc jiffiesToNsecs e s.stats s.work p
      some { s with stats := r.1, work := { r.2.1 with running := r.2.2 } }

/-- Who takes the next step. -/
inductive Actor where
  | module
  | worker
  deriving DecidableEq, Repr

def next : Actor × Env → State → Option State
  | (.module, e), s => moduleThread e s
  | (.worker, e), s => worker jiffiesToNsecs e s

/-- The module before it is loaded. There are no statistics yet, and nobody reads them. -/
def start : State := ⟨default, .fresh, .init⟩

/-- The module, the thread that loads and unloads it, and the worker. -/
def myworkqueue : System State (Actor × Env) := ⟨start, next jiffiesToNsecs⟩

end Code

/-! ## The third block -/

/-- Up to the first statement that uses `nanosecs`. -/
def Pc.early : Pc → Bool
  | .cyclesCurr | .jiffCurr | .nanosecsCurr => true
  | _ => false

/-- No statement of `work_func` takes the block away or brings one. -/
theorem workFunc_isSome (jiffiesToNsecs : UInt64 → UInt64) (e : Env) (st : Stats)
    (w : WorkItem Pc) (p : Pc) :
    (workFunc jiffiesToNsecs e st w p).1.nanosecs.isSome = st.nanosecs.isSome := by
  cases p with
  | nanosecsCurr => cases h : st.nanosecs <;> simp [workFunc, h]
  | cyclesMax | cyclesMin | jiffMax | jiffMin =>
      simp only [workFunc]
      split <;> simp
  | _ => rfl

/-- Nobody has scheduled the work before `init_module`, and without a block behind `nanosecs`
no `work_func` comes far. -/
structure Settled (s : State) : Prop where
  fresh : s.phase = .init → s.work = .fresh
  early : s.stats.nanosecs = none → ∀ p, s.work.running = some p → p.early = true

theorem settled_inductive (jiffiesToNsecs : UInt64 → UInt64) :
    (myworkqueue jiffiesToNsecs).Inductive Settled where
  init := ⟨fun _ => rfl, nofun⟩
  step := by
    rintro ⟨actor, e⟩ s t ⟨hfresh, hearly⟩ h
    cases actor with
    | module =>
        have hmodule : moduleThread e s = some t := h
        unfold moduleThread at hmodule
        cases hphase : s.phase with
        | init =>
            rw [hphase] at hmodule
            cases hmodule
            unfold initModule
            cases initStats e with
            | none => exact ⟨nofun, hearly⟩
            | some st =>
                refine ⟨fun hinit => ?_, fun _ p hrun => ?_⟩
                · rw [hfresh hphase] at hinit
                  cases hinit
                · rw [hfresh hphase] at hrun
                  cases hrun
        | initRet | live | cleanupRet =>
            rw [hphase] at hmodule
            cases hmodule
            exact ⟨nofun, hearly⟩
        | gone | refused | died =>
            rw [hphase] at hmodule
            cases hmodule
    | worker =>
        have hworker : worker jiffiesToNsecs e s = some t := h
        unfold worker at hworker
        cases hrun : s.work.running with
        | none =>
            rw [hrun] at hworker
            obtain ⟨w, hw, rfl⟩ := Option.map_eq_some_iff.mp hworker
            obtain ⟨hpending, -, rfl⟩ := WorkItem.begin_eq_some.mp hw
            refine ⟨fun hinit => ?_, ?_⟩
            · rw [hfresh hinit] at hpending
              cases hpending
            · rintro - p ⟨⟩
              rfl
        | some p =>
            rw [hrun] at hworker
            cases hworker
            refine ⟨fun hinit => ?_, ?_⟩
            · rw [hfresh hinit] at hrun
              cases hrun
            · intro hnone q hq
              have hblock := workFunc_isSome jiffiesToNsecs e s.stats s.work p
              dsimp only at hnone hq
              rw [hnone, Option.isSome_none, Eq.comm, Option.isSome_eq_false_iff,
                Option.isNone_iff_eq_none] at hblock
              have hp := hearly hblock p hrun
              cases p with
              | cyclesCurr | jiffCurr => cases hq; rfl
              | nanosecsCurr =>
                  rw [workFunc, hblock] at hq
                  cases hq
              | _ => cases hp

end CAdvanced.Myworkqueue
