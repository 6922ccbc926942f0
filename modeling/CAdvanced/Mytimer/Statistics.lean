import CAdvanced.Sequential.Extremes
import Mathlib.Algebra.BigOperators.Group.List.Basic
import Mathlib.Algebra.Group.Basic
import Mathlib.Data.UInt

/-!
# Mytimer — Statistics

What `timer_func` of `mytimer.c` keeps about the time between its calls, in jiffies, cycles
and nanoseconds. All numbers are `unsigned long`, and the clocks may wrap around. The extremes
in nanoseconds are not compared but taken over together with those in jiffies, and belong to
them in every state (`Tied`), except that `jiff.min` starts with a number that no one may
have measured.

The conversion `jiffies_to_nsecs` is the kernel's, and is taken as it is.
-/

namespace CAdvanced.Mytimer

open CAdvanced.Sequential

/-- `times_t`. -/
structure Times where
  prev : UInt64
  curr : UInt64
  max : UInt64
  min : UInt64
  deriving DecidableEq, Repr

/-- The three records. -/
structure Stats where
  jiff : Times
  cycles : Times
  nanosecs : Times
  deriving DecidableEq, Repr

/-- What `jiffies` and `get_cycles()` say to one call. -/
structure Clocks where
  jiffies : UInt64
  cycles : UInt64
  deriving DecidableEq, Repr

/-- What the records hold when the module is loaded. -/
def initialTimes : Times := ⟨0, 0, 0, 0xFFFFFFFFFFFFFFFF⟩

/-- `timer_init`. -/
def timerInit (now : Clocks) : Stats where
  jiff := { initialTimes with prev := now.jiffies }
  cycles := { initialTimes with prev := now.cycles }
  nanosecs := initialTimes

/-- `timer_func`; the timer is set again for every call. -/
def timerFunc (jiffiesToNsecs : UInt64 → UInt64) (s : Stats) (now : Clocks) : Stats :=
  let cyc := now.cycles
  let j := now.jiffies
  let cyclesCurr := cyc - s.cycles.prev
  let jiffCurr := j - s.jiff.prev
  let nanosecsCurr := jiffiesToNsecs jiffCurr
  { cycles := {
      curr := cyclesCurr
      max := if cyclesCurr > s.cycles.max then cyclesCurr else s.cycles.max
      min := if cyclesCurr < s.cycles.min then cyclesCurr else s.cycles.min
      prev := cyc }
    jiff := {
      curr := jiffCurr
      max := if jiffCurr > s.jiff.max then jiffCurr else s.jiff.max
      min := if jiffCurr < s.jiff.min then jiffCurr else s.jiff.min
      prev := j }
    nanosecs := {
      curr := nanosecsCurr
      max := if jiffCurr > s.jiff.max then nanosecsCurr else s.nanosecs.max
      min := if jiffCurr < s.jiff.min then nanosecsCurr else s.nanosecs.min
      prev := s.nanosecs.prev } }

/-- The records after these calls. -/
def run (jiffiesToNsecs : UInt64 → UInt64) (calls : List Clocks) (s : Stats) : Stats :=
  calls.foldl (timerFunc jiffiesToNsecs) s

/-- What each of these calls reports. -/
def reports (jiffiesToNsecs : UInt64 → UInt64) : List Clocks → Stats → List Stats
  | [], _ => []
  | now :: calls, s =>
      timerFunc jiffiesToNsecs s now
        :: reports jiffiesToNsecs calls (timerFunc jiffiesToNsecs s now)

/-- How far a clock has come from one reading to the next. -/
def differences : UInt64 → List UInt64 → List UInt64
  | _, [] => []
  | prev, now :: clock => (now - prev) :: differences now clock

/-- **The extremes** of these values. -/
structure Times.Extremes (t : Times) (values : List UInt64) : Prop where
  max_mem : t.max ∈ values
  le_max : ∀ d ∈ values, d ≤ t.max
  min_mem : t.min ∈ values
  min_le : ∀ d ∈ values, t.min ≤ d

/-! ## One record -/

/-- What a call makes of the record of one clock. -/
def Times.measure (t : Times) (now : UInt64) : Times where
  prev := now
  curr := now - t.prev
  max := pick (fun x best => best < x) t.max (now - t.prev)
  min := pick (fun x best => x < best) t.min (now - t.prev)

/-- The extremes are picked from the differences. -/
theorem foldl_measure (clock : List UInt64) (t : Times) :
    (clock.foldl Times.measure t).max
        = (differences t.prev clock).foldl (pick fun x best => best < x) t.max
      ∧ (clock.foldl Times.measure t).min
        = (differences t.prev clock).foldl (pick fun x best => x < best) t.min := by
  induction clock generalizing t with
  | nil => exact ⟨rfl, rfl⟩
  | cons now clock ih => exact ih (t.measure now)

theorem differences_ne_nil {prev : UInt64} {clock : List UInt64} (h : clock ≠ []) :
    differences prev clock ≠ [] := by
  cases clock with
  | nil => exact absurd rfl h
  | cons now clock => exact List.cons_ne_nil _ _

/-- **The extremes of one clock**, when the record starts with the sentinels. -/
theorem measure_extremes {clock : List UInt64} (hne : clock ≠ []) {t : Times} (hmax : t.max = 0)
    (hmin : t.min = 0xFFFFFFFFFFFFFFFF) :
    (clock.foldl Times.measure t).Extremes (differences t.prev clock) := by
  obtain ⟨hmaxs, hmins⟩ := foldl_measure clock t
  rw [hmax] at hmaxs
  rw [hmin] at hmins
  have hdiff : differences t.prev clock ≠ [] := differences_ne_nil hne
  have hleast : ∀ x : UInt64, ¬ x < 0 := fun _ => UInt64.not_lt.mpr UInt64.zero_le
  have hgreatest : ∀ x : UInt64, ¬ 0xFFFFFFFFFFFFFFFF < x := by
    intro x
    rw [UInt64.not_lt, UInt64.le_iff_toNat_le]
    exact Nat.le_of_lt_succ x.toNat_lt
  obtain ⟨hmaxmem, hlemax⟩ := ranks_gt.foldl_extreme hdiff hleast
  obtain ⟨hminmem, hminle⟩ := ranks_lt.foldl_extreme hdiff hgreatest
  rw [← hmaxs] at hmaxmem hlemax
  rw [← hmins] at hminmem hminle
  exact ⟨hmaxmem, fun d hd => UInt64.not_lt.mp (hlemax d hd), hminmem,
    fun d hd => UInt64.not_lt.mp (hminle d hd)⟩

/-- The differences add up to the way that the clock has gone. -/
theorem sum_differences (prev : UInt64) (clock : List UInt64) :
    (differences prev clock).sum = clock.getLastD prev - prev := by
  induction clock generalizing prev with
  | nil => exact (sub_self prev).symm
  | cons now clock ih =>
      rw [differences, List.sum_cons, ih, List.getLastD_cons, sub_add_sub_cancel']

/-! ## The three records -/

variable (jiffiesToNsecs : UInt64 → UInt64) (calls : List Clocks) (s : Stats)

/-- The records of the clocks do not depend on each other. -/
theorem run_clocks :
    (run jiffiesToNsecs calls s).jiff = (calls.map Clocks.jiffies).foldl Times.measure s.jiff
      ∧ (run jiffiesToNsecs calls s).cycles
        = (calls.map Clocks.cycles).foldl Times.measure s.cycles := by
  induction calls generalizing s with
  | nil => exact ⟨rfl, rfl⟩
  | cons now calls ih => exact ih (timerFunc jiffiesToNsecs s now)

/-- What is reported as `jiff.curr`. -/
theorem reports_curr :
    (reports jiffiesToNsecs calls s).map (fun r => r.jiff.curr)
      = differences s.jiff.prev (calls.map Clocks.jiffies) := by
  induction calls generalizing s with
  | nil => rfl
  | cons now calls ih =>
      rw [reports, List.map_cons, ih]
      rfl

/-- The extremes in nanoseconds belong to those in jiffies, but for the sentinel. -/
structure Tied (s : Stats) : Prop where
  max : s.nanosecs.max = jiffiesToNsecs s.jiff.max
  min : s.jiff.min = 0xFFFFFFFFFFFFFFFF ∨ s.nanosecs.min = jiffiesToNsecs s.jiff.min

variable {jiffiesToNsecs s}

/-- A call keeps them together. -/
theorem Tied.timerFunc (h : Tied jiffiesToNsecs s) (now : Clocks) :
    Tied jiffiesToNsecs (timerFunc jiffiesToNsecs s now) := by
  unfold Mytimer.timerFunc
  constructor
  · dsimp only
    split
    · rfl
    · exact h.max
  · dsimp only
    split
    · exact .inr rfl
    · exact h.min

theorem Tied.run (h : Tied jiffiesToNsecs s) (calls : List Clocks) :
    Tied jiffiesToNsecs (run jiffiesToNsecs calls s) := by
  induction calls generalizing s with
  | nil => exact h
  | cons now calls ih => exact ih (h.timerFunc now)

/-! ## From `timer_init` on -/

variable (jiffiesToNsecs)

/-- **The statistics of `mytimer.c`** after `timer_init` and any calls of `timer_func`. -/
theorem timer_statistics (hzero : jiffiesToNsecs 0 = 0) (init : Clocks) {calls : List Clocks}
    (hne : calls ≠ []) :
    (run jiffiesToNsecs calls (timerInit init)).jiff.Extremes
        (differences init.jiffies (calls.map Clocks.jiffies))
      ∧ (run jiffiesToNsecs calls (timerInit init)).cycles.Extremes
        (differences init.cycles (calls.map Clocks.cycles))
      ∧ ((reports jiffiesToNsecs calls (timerInit init)).map fun r => r.jiff.curr).sum
        = (calls.getLast hne).jiffies - init.jiffies
      ∧ (run jiffiesToNsecs calls (timerInit init)).nanosecs.max
        = jiffiesToNsecs (run jiffiesToNsecs calls (timerInit init)).jiff.max
      ∧ ((∃ d ∈ differences init.jiffies (calls.map Clocks.jiffies), d < 0xFFFFFFFFFFFFFFFF) →
          (run jiffiesToNsecs calls (timerInit init)).nanosecs.min
            = jiffiesToNsecs (run jiffiesToNsecs calls (timerInit init)).jiff.min) := by
  obtain ⟨hjiff, hcycles⟩ := run_clocks jiffiesToNsecs calls (timerInit init)
  have hjiffs : (run jiffiesToNsecs calls (timerInit init)).jiff.Extremes
      (differences init.jiffies (calls.map Clocks.jiffies)) := by
    rw [hjiff]
    exact measure_extremes (by simp [hne]) rfl rfl
  have htied : Tied jiffiesToNsecs (run jiffiesToNsecs calls (timerInit init)) :=
    Tied.run ⟨hzero.symm, .inl rfl⟩ calls
  refine ⟨hjiffs, ?_, ?_, htied.max, ?_⟩
  · rw [hcycles]
    exact measure_extremes (by simp [hne]) rfl rfl
  · rw [reports_curr, sum_differences]
    congr 1
    rw [List.getLastD_eq_getLast?, List.getLast?_map, List.getLast?_eq_some_getLast hne]
    rfl
  · intro hsome
    obtain ⟨d, hd, hlt⟩ := hsome
    refine htied.min.resolve_left fun hmin => ?_
    have hle := hjiffs.min_le d hd
    rw [hmin] at hle
    exact UInt64.not_lt.mpr hle hlt

/-- Two calls, the second after the clock of the jiffies has wrapped around; a jiffy takes
four milliseconds. -/
theorem timer_statistics_wrapped :
    (run (fun n => 4000000 * n) [⟨0xFFFFFFFFFFFFFFFF, 20⟩, ⟨4, 50⟩]
        (timerInit ⟨0xFFFFFFFFFFFFFFFD, 10⟩)).jiff.Extremes [2, 5]
      ∧ (run (fun n => 4000000 * n) [⟨0xFFFFFFFFFFFFFFFF, 20⟩, ⟨4, 50⟩]
        (timerInit ⟨0xFFFFFFFFFFFFFFFD, 10⟩)).nanosecs.min = 8000000 := by
  obtain ⟨hjiff, -, -, -, hmin⟩ := timer_statistics (fun n => 4000000 * n) rfl
    ⟨0xFFFFFFFFFFFFFFFD, 10⟩ (List.cons_ne_nil ⟨0xFFFFFFFFFFFFFFFF, 20⟩ [⟨4, 50⟩])
  exact ⟨hjiff, hmin ⟨2, List.mem_cons_self, by decide⟩⟩

end CAdvanced.Mytimer
