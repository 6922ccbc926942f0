import CAdvanced.Interleave.WaitQueue
import Mathlib.Algebra.BigOperators.Group.Finset.Basic
import Mathlib.Algebra.Order.BigOperators.Group.Finset
import Mathlib.Data.Fintype.Basic

/-!
# Interleave — condition variables

A condition variable is the set of those who sleep on it. Waiting gives the mutex up and
goes to sleep in one step; who is awake again has still to get the mutex back. A signal wakes
one sleeper, whichever, and is lost if there is none. A sleeper may also wake up by itself
(`WaitQueue.leave`): so "at least one" is a signal and some of these.

* `sleepers_enter`, `sleepers_leave` — how many sleep afterwards.
-/

namespace Interleave

namespace WaitQueue
variable {ι : Type*} [DecidableEq ι] [Fintype ι]

/-- `pthread_cond_signal`, which wakes `j`; or nobody, if nobody sleeps. -/
def signal (j : ι) (q : WaitQueue ι) : Option (WaitQueue ι) :=
  if q j = true then some (q.leave j) else if ∀ k, q k = false then some q else none

/-- How many sleep. -/
def sleepers (q : WaitQueue ι) : Nat := ∑ i, (q i).toNat

omit [DecidableEq ι] in
theorem sleepers_eq_zero {q : WaitQueue ι} : q.sleepers = 0 ↔ ∀ i, q i = false := by
  simp [sleepers, Finset.sum_eq_zero_iff]

omit [DecidableEq ι] in
theorem sleepers_pos {q : WaitQueue ι} {i : ι} (h : q i = true) : 0 < q.sleepers := by
  rw [Nat.pos_iff_ne_zero]
  intro hzero
  rw [sleepers_eq_zero.mp hzero i] at h
  cases h

theorem sleepers_update (q : WaitQueue ι) (i : ι) (b : Bool) :
    sleepers (Function.update q i b) + (q i).toNat = q.sleepers + b.toNat := by
  have hrest : ∑ j ∈ Finset.univ.erase i, (Function.update q i b j).toNat
      = ∑ j ∈ Finset.univ.erase i, (q j).toNat :=
    Finset.sum_congr rfl fun j hj => by rw [Function.update_of_ne (Finset.ne_of_mem_erase hj)]
  unfold sleepers
  rw [← Finset.add_sum_erase _ _ (Finset.mem_univ i), hrest,
    ← Finset.add_sum_erase _ (fun j => (q j).toNat) (Finset.mem_univ i), Function.update_self]
  omega

theorem sleepers_enter {q : WaitQueue ι} {i : ι} (h : q i = false) :
    (q.enter i).sleepers = q.sleepers + 1 := by
  have hsum := sleepers_update q i true
  rw [h] at hsum
  exact hsum

theorem sleepers_leave {q : WaitQueue ι} {i : ι} (h : q i = true) :
    (q.leave i).sleepers + 1 = q.sleepers := by
  have hsum := sleepers_update q i false
  rw [h] at hsum
  exact hsum

/-- There is always somebody whom a signal can wake, or nobody to wake. -/
theorem exists_signal [Nonempty ι] (q : WaitQueue ι) : ∃ j q', q.signal j = some q' := by
  by_cases hall : ∀ k, q k = false
  · obtain ⟨j⟩ := ‹Nonempty ι›
    exact ⟨j, q, by rw [signal, if_neg (by rw [hall j]; exact Bool.false_ne_true), if_pos hall]⟩
  · obtain ⟨j, hj⟩ := not_forall.mp hall
    exact ⟨j, _, if_pos ((Bool.not_eq_false _).mp hj)⟩

end WaitQueue
end Interleave
