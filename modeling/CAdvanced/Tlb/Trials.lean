import CAdvanced.CInt.Wrap
import Mathlib.Algebra.BigOperators.Group.List.Basic
import Mathlib.Algebra.Order.Field.Rat
import Mathlib.Data.List.Range
import Mathlib.Tactic.Linarith

/-!
# Tlb — Trials

The measurement of `tlb.c`: a trial touches one `int` in every page of an array, and prints
what an access has taken on average. The bound of the loop, `numpages * jump`, is a number
of `int`s; it is also what the sum of the times is divided by, and that is 1024 times the
number of the accesses.

The times are exact, and what `printf` rounds is left out.
-/

namespace CAdvanced.Tlb

open CInt

/-- `pagesize`, in bytes. -/
def pagesize : Int := 4096

/-- `sizeof(int)`. -/
def sizeofInt : Nat := 4

/-- `struct timeval`. -/
structure Timeval where
  tvSec : Int
  tvUsec : Int
  deriving DecidableEq, Repr

/-- What the clock says before and after an access. -/
structure Timing where
  start : Timeval
  stop : Timeval
  deriving DecidableEq, Repr

/-- `elapsed`, in milliseconds. -/
def elapsed (t : Timing) : ℚ :=
  (t.stop.tvSec - t.start.tvSec : Int) * 1000 + (t.stop.tvUsec - t.start.tvUsec : Int) / 1000

/-- How many elements `array` has; the product is an `int`, the quotient a `size_t`. -/
def arraySize (numpages : Int) : Nat := unsigned 64 (signed 32 (numpages * pagesize)) / sizeofInt

/-- `jump`. -/
def jump : Int := signed 32 (unsigned 64 pagesize / sizeofInt : Nat)

/-- `numpages * jump`. -/
def bound (numpages : Int) : Int := signed 32 (numpages * jump)

/-- An access: its place in `array`, and the time that it has taken. -/
structure Access where
  index : Int
  elapsed : ℚ
  deriving DecidableEq, Repr

/-- What a trial has done, and the average that it prints. -/
structure Trial where
  accesses : List Access
  average : ℚ
  deriving DecidableEq, Repr

/-- The loop of a trial from its `k`-th access on: the accesses, and `avg` at the end. -/
def accessLoop (numpages : Int) (clock : Nat → Timing) :
    (fuel k : Nat) → (i : Int) → (avg : ℚ) → Option (List Access × ℚ)
  | 0, _, _, _ => none
  | fuel + 1, k, i, avg =>
      if i < bound numpages then
        (accessLoop numpages clock fuel (k + 1) (signed 32 (i + jump))
          (avg + elapsed (clock k))).map fun r => (⟨i, elapsed (clock k)⟩ :: r.1, r.2)
      else some ([], avg)

/-- The trials from the `t`-th on, each of which starts with `avg` at 0. -/
def trials (numpages : Int) (clock : Nat → Nat → Timing) (fuel : Nat) :
    (numtrials t : Nat) → Option (List Trial)
  | 0, _ => some []
  | numtrials + 1, t =>
      (accessLoop numpages (clock t) fuel 0 0 0).bind fun r =>
        (trials numpages clock fuel numtrials (t + 1)).map
          (⟨r.1, r.2 / bound numpages⟩ :: ·)

/-! ## What a trial should do -/

/-- Where in `array` the access is, in bytes. -/
def Access.place (a : Access) : Int := sizeofInt * a.index

/-- The accesses of a trial: one a page, inside the array, and a page apart. -/
structure Trial.Touches (numpages : Nat) (r : Trial) : Prop where
  length_eq : r.accesses.length = numpages
  inside : ∀ a ∈ r.accesses, 0 ≤ a.index ∧ a.index < arraySize numpages
  apart : r.accesses.Pairwise fun a b => pagesize ≤ |b.place - a.place|

/-- The sum of the times of a trial. -/
def Trial.time (r : Trial) : ℚ := (r.accesses.map Access.elapsed).sum

/-- **What a trial should do**, and print. -/
structure Trial.Right (numpages : Nat) (r : Trial) : Prop where
  touches : r.Touches numpages
  average_eq : r.average = r.time / r.accesses.length

/-- What the clock says about the `n` accesses of a trial, in all. -/
def totalTime (clock : Nat → Timing) (n : Nat) : ℚ :=
  ((List.range n).map fun k => elapsed (clock k)).sum

/-! ## The numbers -/

section
variable {n : Nat}

theorem jump_eq : jump = 1024 := by decide +kernel

variable (hfits : n * 4096 ≤ 2 ^ 31 - 1)
include hfits

theorem bound_eq : bound n = (n * 1024 : Nat) := by
  unfold bound
  rw [jump_eq, signed_of_fits (by omega) (by omega)]
  push_cast
  rfl

theorem arraySize_eq : arraySize n = n * 1024 := by
  have hproduct : signed 32 ((n : Int) * pagesize) = (n * 4096 : Nat) := by
    unfold pagesize
    rw [signed_of_fits (by omega) (by omega)]
    push_cast
    rfl
  unfold arraySize sizeofInt
  rw [hproduct, unsigned_natCast (by omega)]
  omega

/-! ## The loop -/

/-- **The loop** goes through the pages that are left, and adds up their times. -/
theorem accessLoop_eq (clock : Nat → Timing) {fuel k : Nat} {avg : ℚ} (hk : k ≤ n)
    (hfuel : n - k < fuel) :
    accessLoop n clock fuel k (k * 1024 : Nat) avg
      = some ((List.range' k (n - k)).map fun j => ⟨(j * 1024 : Nat), elapsed (clock j)⟩,
          avg + ((List.range' k (n - k)).map fun j => elapsed (clock j)).sum) := by
  induction fuel generalizing k avg with
  | zero => omega
  | succ fuel ih =>
      rw [accessLoop, bound_eq hfits]
      rcases Nat.eq_or_lt_of_le hk with rfl | hlt
      · rw [if_neg (Int.lt_irrefl _), Nat.sub_self]
        simp
      · have hnext : signed 32 ((k * 1024 : Nat) + jump) = ((k + 1) * 1024 : Nat) := by
          rw [jump_eq, signed_of_fits (by omega) (by omega)]
          omega
        have hleft : n - k = n - (k + 1) + 1 := by omega
        rw [if_pos (by omega), hnext, ih hlt (by omega), hleft, List.range'_succ, List.map_cons,
          List.map_cons, List.sum_cons, add_assoc]
        rfl

/-- What a trial comes to. -/
def trial (n : Nat) (clock : Nat → Timing) : Trial :=
  ⟨(List.range n).map fun k => ⟨(k * 1024 : Nat), elapsed (clock k)⟩,
    totalTime clock n / (n * 1024 : Nat)⟩

/-- **The trials**, one after the other. -/
theorem trials_eq (clock : Nat → Nat → Timing) {fuel : Nat} (hfuel : n < fuel)
    (numtrials t : Nat) :
    trials n clock fuel numtrials t
      = some ((List.range' t numtrials).map fun j => trial n (clock j)) := by
  induction numtrials generalizing t with
  | zero => rfl
  | succ numtrials ih =>
      have hloop : accessLoop n (clock t) fuel 0 (0 * 1024 : Nat) 0 = _ :=
        accessLoop_eq hfits (clock t) (Nat.zero_le n) hfuel
      rw [Nat.zero_mul, Nat.sub_zero, zero_add, ← List.range_eq_range', Nat.cast_zero] at hloop
      rw [trials, hloop, Option.bind_some, ih, List.range'_succ, List.map_cons, bound_eq hfits,
        Int.cast_natCast]
      rfl

/-- The accesses of a trial are what they should be. -/
theorem trial_touches (clock : Nat → Timing) : (trial n clock).Touches n where
  length_eq := by simp [trial]
  inside := by
    intro a ha
    obtain ⟨k, hk, rfl⟩ := List.mem_map.mp ha
    have hlt := List.mem_range.mp hk
    rw [arraySize_eq hfits]
    dsimp only
    omega
  apart := by
    rw [trial, List.pairwise_map]
    refine List.pairwise_lt_range.imp fun {j k} hjk => ?_
    have hfar : (4096 : Int) ≤ 4 * (k * 1024 : Nat) - 4 * (j * 1024 : Nat) := by omega
    exact hfar.trans (le_abs_self _)

end

theorem time_trial (n : Nat) (clock : Nat → Timing) : (trial n clock).time = totalTime clock n := by
  rw [Trial.time, trial, List.map_map]
  rfl

/-- The average is right just when there is nothing to divide. -/
theorem average_iff {n : Nat} (hn : 1 ≤ n) (clock : Nat → Timing) :
    (trial n clock).average = (trial n clock).time / (trial n clock).accesses.length
      ↔ totalTime clock n = 0 := by
  have hlength : (trial n clock).accesses.length = n := by simp [trial]
  have hpos : (n : ℚ) ≠ 0 := by
    have := Nat.ne_of_gt hn
    exact_mod_cast this
  rw [time_trial, hlength]
  show totalTime clock n / (n * 1024 : Nat) = totalTime clock n / n ↔ _
  rw [Nat.cast_mul, ← div_div]
  constructor
  · intro h
    have hquotient : totalTime clock n / n = 0 := by
      push_cast at h
      linarith
    exact (div_eq_zero_iff.mp hquotient).resolve_right hpos
  · intro h
    rw [h, zero_div, zero_div]

/-- **The trials of `tlb.c`** end and make the accesses that they should; what they print is
right just when the times of each trial add up to nothing. -/
theorem trials_right_iff {n : Nat} (hn : 1 ≤ n) (hfits : n * 4096 ≤ 2 ^ 31 - 1)
    (clock : Nat → Nat → Timing) {fuel : Nat} (hfuel : n < fuel) (numtrials : Nat) :
    ∃ rs, trials n clock fuel numtrials 0 = some rs ∧ rs.length = numtrials
      ∧ (∀ r ∈ rs, r.Touches n)
      ∧ ((∀ r ∈ rs, r.Right n) ↔ ∀ t, t < numtrials → totalTime (clock t) n = 0) := by
  refine ⟨_, trials_eq hfits clock hfuel numtrials 0, by simp, ?_, ?_⟩
  · intro r hr
    obtain ⟨t, -, rfl⟩ := List.mem_map.mp hr
    exact trial_touches hfits (clock t)
  · rw [List.forall_mem_map, ← List.range_eq_range']
    constructor
    · intro h t ht
      exact (average_iff hn (clock t)).mp (h t (List.mem_range.mpr ht)).average_eq
    · intro h t ht
      have hzero := h t (List.mem_range.mp ht)
      exact ⟨trial_touches hfits (clock t), (average_iff hn (clock t)).mpr hzero⟩

/-- Two pages and a clock that stands still. -/
theorem trials_right_iff_still :
    ∃ rs, trials (2 : Nat) (fun _ _ => ⟨⟨0, 0⟩, ⟨0, 0⟩⟩) 3 5 0 = some rs ∧ rs.length = 5
      ∧ ∀ r ∈ rs, r.Right 2 := by
  obtain ⟨rs, hrs, hlength, -, hiff⟩ := trials_right_iff (n := 2) (by decide) (by decide)
    (fun _ _ => ⟨⟨0, 0⟩, ⟨0, 0⟩⟩) (Nat.lt_succ_self 2) 5
  have hstill : totalTime (fun _ => ⟨⟨0, 0⟩, ⟨0, 0⟩⟩) 2 = 0 := by decide +kernel
  exact ⟨rs, hrs, hlength, hiff.mpr fun _ _ => hstill⟩

/-- One page, one trial, one millisecond: the average that is printed is 1/1024 of it. -/
theorem not_trials_right :
    ¬ ∀ (n : Nat) (clock : Nat → Nat → Timing) (fuel numtrials : Nat), 1 ≤ n →
      n * 4096 ≤ 2 ^ 31 - 1 → n < fuel →
        ∃ rs, trials n clock fuel numtrials 0 = some rs ∧ ∀ r ∈ rs, r.Right n := by
  intro hall
  let clock : Nat → Nat → Timing := fun _ _ => ⟨⟨0, 0⟩, ⟨0, 1000⟩⟩
  obtain ⟨rs, hrs, hright⟩ := hall 1 clock 2 1 (by decide) (by decide) (by decide)
  have heq : trials (1 : Nat) clock 2 1 0 = some [trial 1 (clock 0)] :=
    trials_eq (by decide) clock (Nat.lt_succ_self 1) 1 0
  rw [heq] at hrs
  obtain rfl := Option.some.inj hrs
  have haverage := (hright _ (List.mem_singleton_self _)).average_eq
  exact absurd ((average_iff (Nat.le_refl 1) (clock 0)).mp haverage) (by decide +kernel)

end CAdvanced.Tlb
