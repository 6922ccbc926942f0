import CAdvanced.Myworkqueue.Model
import CAdvanced.Sequential.Extremes
import Mathlib.Data.UInt

/-!
# Myworkqueue — Statistics

What `work_func` reports. The extremes in jiffies and in cycles are those of the delays that
have been measured. Those in nanoseconds are set together with the extremes in jiffies, and
nobody initializes them: `init_module` takes the third block as `kmalloc` returns it, so until
a delay has been longer than 0 the maximum that is printed is what was in the block before,
and likewise for the minimum.
-/

namespace CAdvanced.Myworkqueue

open Interleave Interleave.System CAdvanced.Sequential

variable {jiffiesToNsecs : UInt64 → UInt64} {s t : State} {l : Actor × Env}

/-- **The extremes** of these values. -/
structure Times.Extremes (t : Times) (values : List UInt64) : Prop where
  max_mem : t.max ∈ values
  le_max : ∀ d ∈ values, d ≤ t.max
  min_mem : t.min ∈ values
  min_le : ∀ d ∈ values, t.min ≤ d

/-- The module has been loaded. -/
def Loaded (s : State) : Prop := s.phase ≠ .init

/-! ## One step -/

theorem worker_cases {e : Env} (h : worker jiffiesToNsecs e s = some t) :
    t.phase = s.phase ∧
    ((s.work.running = none ∧ t.stats = s.stats ∧ t.work.running = some .cyclesCurr) ∨
    ∃ p, s.work.running = some p ∧ t.stats = (workFunc jiffiesToNsecs e s.stats s.work p).1
      ∧ t.work.running = (workFunc jiffiesToNsecs e s.stats s.work p).2.2) := by
  unfold worker at h
  cases hrun : s.work.running with
  | none =>
      rw [hrun] at h
      obtain ⟨w, hw, rfl⟩ := Option.map_eq_some_iff.mp h
      obtain ⟨-, -, rfl⟩ := WorkItem.begin_eq_some.mp hw
      exact ⟨rfl, .inl ⟨rfl, rfl, rfl⟩⟩
  | some p =>
      rw [hrun] at h
      cases h
      exact ⟨rfl, .inr ⟨p, rfl, rfl, rfl⟩⟩

/-- The state behind `init_module`, with these statistics. -/
def loaded (st : Stats) : State := ⟨st, ⟨true, none⟩, .initRet⟩

/-- Where `nanosecs->curr` belongs to `jiff->curr`. -/
def Pc.converted : Pc → Bool
  | .cyclesCurr | .jiffCurr | .nanosecsCurr => false
  | _ => true

/-- The extremes in nanoseconds belong to those in jiffies, or are what was in the block. -/
structure TiedAt (jiffiesToNsecs : UInt64 → UInt64) (garbage : Times) (jiff nanosecs : Times) :
    Prop where
  max : nanosecs.max = if jiff.max = 0 then garbage.max else jiffiesToNsecs jiff.max
  min : nanosecs.min
    = if jiff.min = 0xFFFFFFFFFFFFFFFF then garbage.min else jiffiesToNsecs jiff.min

/-- If there is a block, it is tied to the statistics in jiffies, and so is `curr` behind its
conversion. -/
structure Tied (jiffiesToNsecs : UInt64 → UInt64) (garbage : Times) (s : State) : Prop where
  loaded : Loaded s
  curr : ∀ nanosecs, s.stats.nanosecs = some nanosecs → ∀ p, s.work.running = some p →
    p.converted = true → nanosecs.curr = jiffiesToNsecs s.stats.jiff.curr
  tied : ∀ nanosecs, s.stats.nanosecs = some nanosecs →
    TiedAt jiffiesToNsecs garbage s.stats.jiff nanosecs

variable {garbage : Times}

namespace Clock

end Clock

end CAdvanced.Myworkqueue
