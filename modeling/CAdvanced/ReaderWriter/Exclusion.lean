import CAdvanced.ReaderWriter.Termination

/-!
# ReaderWriter — Exclusion

What the lock protects is right up to the width of `value`. No increment is ever lost, but
`value` is an `int`: writers that make more than `INT_MAX` increments between them carry it
over, and a reader prints, and `main` finds, something else than their number.

The exclusion itself (`Exclusion`) has nothing to do with that. That the values are right
in EVERY run needs a run that makes all the increments; `ends` has one.
-/

namespace CAdvanced.ReaderWriter

open Interleave System ReaderWriterMain

variable {numReaders numWriters loops : Nat}

/-- The values that a run of `ls` to `c` shows are right: what a reader is about to print
is the number of increments stored so far, and when all threads are done, `value` is
`num_writers * loops`. -/
structure Counted (loops : Nat) (ls : List (Tid numReaders numWriters))
    (c : Conf (Tid numReaders numWriters) Shared Thread) : Prop where
  printed : ∀ j v i, c.threads j = .reader ⟨.printValue v, i⟩ →
    v = (program numReaders numWriters loops).count
      (movedFrom ReaderWriterMain.Thread.storesValue) ls
  ended : (∀ i, (c.threads i).isFinished) → c.shared.value = (numWriters * loops : Nat)

/-- A run that stores no more increments than an `int` can hold shows the right values. -/
theorem counted_of_fits (hfits : ((numWriters * loops : Nat) : Int) ≤ CInt.intMax)
    {ls : List (Tid numReaders numWriters)}
    {c : Conf (Tid numReaders numWriters) Shared Thread}
    (h : (program numReaders numWriters loops).Reaches ls c) : Counted loops ls c where
  printed j v i hj := by
    have haccount := increments_account h
    rw [printed_account h hj]
    exact (CInt.signed_eq_self_iff (Int.natCast_nonneg _)).mpr (by omega)
  ended hall := by
    have hI : Inv loops c := inv_inductive.reachable h.reachable
    have hsame := (CInt.signed_eq_self_iff (Int.natCast_nonneg _)).mpr hfits
    rw [hI.shared_of_finished hall, hsame]

theorem fits_of_counted
    (hcounted : ∀ {ls c}, (program numReaders numWriters loops).Reaches ls c → Counted loops ls c) :
    ((numWriters * loops : Nat) : Int) ≤ CInt.intMax := by
  obtain ⟨ls, c, hrun, -, hshared, hall⟩ := ends.exists_run
  have hvalue : c.shared.value = CInt.signed 32 (numWriters * loops : Nat) := by rw [hshared]
  exact (CInt.signed_eq_self_iff (Int.natCast_nonneg _)).mp
    (hvalue.symm.trans ((hcounted hrun).ended hall))

/-- **Readers–writer exclusion.** In every state of every run no writer is between its
acquire and its release of the write lock while a reader is inside, or while another writer
is, and while no thread is in a `mutex` section, `readers` is the number of readers inside.
What a reader prints is the number of increments of `value` stored so far, and `value` is
`num_writers * loops` when all threads are done, in all runs exactly if that is not more
than `INT_MAX`. -/
theorem reader_writer_exclusion (numReaders numWriters loops : Nat) :
    (∀ {ls c}, (program numReaders numWriters loops).Reaches ls c → Exclusion c)
    ∧ ((∀ {ls c}, (program numReaders numWriters loops).Reaches ls c → Counted loops ls c)
        ↔ ((numWriters * loops : Nat) : Int) ≤ CInt.intMax) :=
  ⟨fun h => (inv_inductive.reachable h.reachable).exclusion, fits_of_counted, counted_of_fits⟩

/-- Two writers and `loops = 2147483647`: both counts are `int`s, and yet their product is
not. -/
theorem value_overflows : ∃ ls c, (program 0 2 2147483647).Reaches ls c
    ∧ (∀ i, (c.threads i).isFinished) ∧ c.shared.value = -2 := by
  obtain ⟨ls, c, hrun, -, hshared, hall⟩ :=
    (ends : (program 0 2 2147483647).EndsWithin _ _).exists_run
  refine ⟨ls, c, hrun, hall, ?_⟩
  rw [hshared]
  decide +kernel

end CAdvanced.ReaderWriter
