import CAdvanced.MutexNostarve.Termination

/-!
# MutexNostarve — Exclusion

What the lock protects is right up to the width of `critical`. No update of it is ever
lost, but it is an `int`: when more rounds have been made than `INT_MAX`, `critical++` has
overflown, and the number of acquisitions is not what it holds.

That the lock never lets two threads in, and that the waiting rooms are exact, has nothing
to do with that (`Exclusion`). That `critical` is right at the end of EVERY run needs a
run that gets there; `workers_end` has one.
-/

namespace CAdvanced.MutexNostarve

open Interleave System

variable {ι : Type} [Fintype ι] [DecidableEq ι]

/-- `critical` is the number of acquisitions whenever all are done, exactly as long as an
`int` can hold the number of rounds. -/
theorem counted_iff (rounds : ι → Nat) :
    (∀ {ls c}, (program rounds).Reaches ls c → (∀ i, (c.threads i).pc = .finished) →
        c.shared.critical = (program rounds).count (movedFrom Worker.leaves2) ls)
      ↔ ((∑ i, rounds i : Nat) : Int) ≤ CInt.intMax := by
  rw [← CInt.signed_eq_self_iff (Int.natCast_nonneg _)]
  constructor
  · intro hcounted
    obtain ⟨ls, c, hrun, -, -, -, hall⟩ := (workers_end rounds).exists_run
    obtain ⟨hcount, hcritical⟩ := (exclusion hrun).ended hall
    rw [← hcritical, hcounted hrun hall, hcount]
  · intro hfits ls c hrun hall
    obtain ⟨hcount, hcritical⟩ := (exclusion hrun).ended hall
    rw [hcritical, hfits, hcount]

/-- **Mutual exclusion, no lost update**: in every state of every run no two threads are
between the end of `ns_mutex_acquire` and the post of `ns_mutex_release`, and both waiting
rooms are non-negative and hold exactly the increments minus the decrements stored so far;
at the end as many acquisitions have been made as the quotas say. That `critical` then is
their number holds for all runs exactly if the quotas do not add up to more than
`INT_MAX`. -/
theorem mutex_nostarve_exclusion (rounds : ι → Nat) :
    (∀ {ls c}, (program rounds).Reaches ls c → Exclusion rounds ls c)
    ∧ ((∀ {ls c}, (program rounds).Reaches ls c → (∀ i, (c.threads i).pc = .finished) →
          c.shared.critical = (program rounds).count (movedFrom Worker.leaves2) ls)
        ↔ ((∑ i, rounds i : Nat) : Int) ≤ CInt.intMax) :=
  ⟨exclusion, counted_iff rounds⟩

/-- One thread that goes 2147483648 times through the lock: the last `critical++` is one
too many for an `int`. -/
theorem critical_overflows : ∃ ls c, (program fun _ : Fin 1 => 2147483648).Reaches ls c
    ∧ (∀ i, (c.threads i).pc = .finished)
    ∧ (program fun _ : Fin 1 => 2147483648).count (movedFrom Worker.leaves2) ls = 2147483648
    ∧ c.shared.critical = -2147483648 := by
  obtain ⟨ls, c, hrun, -, -, -, hall⟩ :=
    (workers_end fun _ : Fin 1 => 2147483648).exists_run
  obtain ⟨hcount, hcritical⟩ := (exclusion hrun).ended hall
  rw [Finset.univ_unique, Finset.sum_singleton] at hcount hcritical
  exact ⟨ls, c, hrun, hall, hcount, hcritical.trans (by decide)⟩

end CAdvanced.MutexNostarve
