import CAdvanced.Interleave.Straight
import Mathlib.Data.Fintype.Defs

/-!
# Rendezvous — Order

`rendezvous.c`: two children that wait for each other between two messages. Each semaphore
has one thread that waits at it, so all schedules do the same in another order
(`straight_commutes`), and one run for each message tells what comes before it. That leaves
four outputs, and each of them is one of the program.
-/

namespace CAdvanced.Rendezvous

open Interleave Interleave.System Interleave.Straight

/-! ## Model -/

/-- The threads. -/
inductive Thread where
  | main
  | child1
  | child2
  deriving DecidableEq, Repr

theorem mem_threads (i : Thread) : i ∈ ({.main, .child1, .child2} : Finset Thread) := by
  cases i <;> decide

instance : Fintype Thread := ⟨{.main, .child1, .child2}, mem_threads⟩

/-- The semaphores. -/
inductive Sem where
  | oneArrived
  | twoArrived
  deriving DecidableEq, Repr

/-- The messages. -/
inductive Message where
  | parentBegin
  | before1
  | before2
  | after1
  | after2
  | parentEnd
  deriving DecidableEq, Repr

/-- What is printed. -/
def Message.text : Message → String
  | .parentBegin => "parent: begin\n"
  | .before1 => "child 1: before\n"
  | .before2 => "child 2: before\n"
  | .after1 => "child 1: after\n"
  | .after2 => "child 2: after\n"
  | .parentEnd => "parent: end\n"

/-- `main`, `child_1` and `child_2`; `sleep` does nothing that can be seen. -/
def program : Thread → List (Stmt Thread Sem Message)
  | .main =>
      [.print .parentBegin, .create .child1, .create .child2, .join .child1, .join .child2,
        .print .parentEnd]
  | .child1 =>
      [.print .before1, .skip, .post .oneArrived, .skip, .wait .twoArrived, .print .after1]
  | .child2 => [.print .before2, .skip, .post .twoArrived, .wait .oneArrived, .print .after2]

/-- The program; both semaphores are 0. -/
def rendezvous : System (State Thread Sem) Thread := straight program .main fun _ => 0

/-- The messages of a run, in the order in which they are printed. -/
def output (ls : List Thread) : List Message :=
  rendezvous.trace (printed program) ls rendezvous.init

/-- The outputs that are wanted: both children have arrived before either goes on. -/
def outputs : List (List Message) :=
  [[.parentBegin, .before1, .before2, .after1, .after2, .parentEnd],
    [.parentBegin, .before1, .before2, .after2, .after1, .parentEnd],
    [.parentBegin, .before2, .before1, .after1, .after2, .parentEnd],
    [.parentBegin, .before2, .before1, .after2, .after1, .parentEnd]]

/-- Every thread has come to the end of its code. -/
def finished (s : State Thread Sem) : Bool := ∀ i, Done program s i

/-! ## One run -/

theorem rendezvous_commutes : rendezvous.Commutes (fun _ => True) (printed program) := by
  refine straight_commutes ?_ printed_congr Thread.main _
  intro i j k hi hj
  cases i <;> cases j <;> cases k <;> simp_all [program]

/-- The children one after the other, as far as they come. -/
def schedule : List Thread :=
  [.main, .main, .main, .child1, .child1, .child1, .child1, .child2, .child2, .child2, .child2,
    .child2, .child1, .child1, .main, .main, .main]

theorem exists_finished : ∃ t, rendezvous.Reaches schedule t ∧ ¬ rendezvous.CanMove t
    ∧ finished t = true := by
  obtain ⟨t, ht, hstuck⟩ := exists_stuck (S := rendezvous) schedule (by decide +kernel)
  have hfinished : (rendezvous.exec schedule rendezvous.init).any finished = true := by
    decide +kernel
  rw [show rendezvous.exec schedule rendezvous.init = some t from ht] at hfinished
  exact ⟨t, ht, hstuck, hfinished⟩

/-! ## What comes first -/

/-- `a` is printed in front of `b`, in every run. -/
def Before (a b : Message) : Prop :=
  ∀ ls s, rendezvous.Reaches ls s → b ∈ output ls → (output ls).idxOf a < (output ls).idxOf b

/-- A run without `a` in which the others go as far as they can. -/
theorem before_of_run {a b : Message} (ls : List Thread) (hab : a ≠ b)
    (hrun : ((rendezvous.without (shows (printed program) a)).exec ls rendezvous.init).any
      (fun t => decide (∀ i, ((rendezvous.without (shows (printed program) a)).next i t).isNone))
      = true)
    (hb : b ∉ (rendezvous.without (shows (printed program) a)).trace (printed program) ls
      rendezvous.init) : Before a b := by
  obtain ⟨t, ht, hstuck⟩ := exists_stuck ls hrun
  intro ls' s hrun' hb'
  exact rendezvous_commutes.idxOf_lt hab ht hstuck hb hrun' hb'

theorem begin_first : Before .parentBegin .before1 ∧ Before .parentBegin .before2 :=
  ⟨before_of_run [] (by decide) (by decide +kernel) (by decide +kernel),
    before_of_run [] (by decide) (by decide +kernel) (by decide +kernel)⟩

/-- Without the message of child 1, child 2 comes to its `sem_wait` and no further. -/
theorem before1_first : Before .before1 .after1 ∧ Before .before1 .after2 := by
  let ls : List Thread := [.main, .main, .main, .child2, .child2, .child2]
  exact ⟨before_of_run ls (by decide) (by decide +kernel) (by decide +kernel),
    before_of_run ls (by decide) (by decide +kernel) (by decide +kernel)⟩

theorem before2_first : Before .before2 .after1 ∧ Before .before2 .after2 := by
  let ls : List Thread := [.main, .main, .main, .child1, .child1, .child1, .child1]
  exact ⟨before_of_run ls (by decide) (by decide +kernel) (by decide +kernel),
    before_of_run ls (by decide) (by decide +kernel) (by decide +kernel)⟩

/-- The joins keep the parent back. -/
theorem after_first : Before .after1 .parentEnd ∧ Before .after2 .parentEnd := by
  let arrive : List Thread :=
    [.main, .main, .main, .child1, .child1, .child1, .child1, .child2, .child2, .child2]
  exact ⟨before_of_run (arrive ++ [.child2, .child2, .child1]) (by decide) (by decide +kernel)
      (by decide +kernel),
    before_of_run (arrive ++ [.child2, .child1, .child1, .main]) (by decide) (by decide +kernel)
      (by decide +kernel)⟩

/-! ## The outputs -/

/-- Six messages in an order that keeps to all of that. -/
theorem mem_outputs {o : List Message}
    (hperm : o.Perm [.parentBegin, .before1, .before2, .after1, .after2, .parentEnd])
    (hbegin : o.idxOf .parentBegin < o.idxOf .before1 ∧ o.idxOf .parentBegin < o.idxOf .before2)
    (hbefore1 : o.idxOf .before1 < o.idxOf .after1 ∧ o.idxOf .before1 < o.idxOf .after2)
    (hbefore2 : o.idxOf .before2 < o.idxOf .after1 ∧ o.idxOf .before2 < o.idxOf .after2)
    (hafter : o.idxOf .after1 < o.idxOf .parentEnd ∧ o.idxOf .after2 < o.idxOf .parentEnd) :
    o ∈ outputs := by
  have hlength : o.length = 6 := hperm.length_eq
  have hmem : ∀ m : Message, m ∈ o := fun m => hperm.mem_iff.mpr (by cases m <;> decide)
  have hlt : ∀ m, o.idxOf m < 6 := fun m => hlength ▸ List.idxOf_lt_length_of_mem (hmem m)
  have hne : ∀ m m', m ≠ m' → o.idxOf m ≠ o.idxOf m' := fun m m' h heq =>
    h ((List.idxOf_inj (hmem m)).mp heq)
  have hat : ∀ m k, o.idxOf m = k → o[k]? = some m := by
    rintro m k rfl
    exact List.getElem?_idxOf (hmem m)
  have hend := hlt .parentEnd
  have hbefore := hne .before1 .before2 (by decide)
  have hafter' := hne .after1 .after2 (by decide)
  have hparts : ∀ {x y z w : Message},
      o.idxOf .parentBegin = 0 → o.idxOf x = 1 → o.idxOf y = 2 → o.idxOf z = 3 → o.idxOf w = 4 →
      o.idxOf .parentEnd = 5 → o = [.parentBegin, x, y, z, w, .parentEnd] := by
    intro x y z w h0 h1 h2 h3 h4 h5
    apply List.ext_getElem?
    intro k
    match k with
    | 0 => exact hat _ _ h0
    | 1 => exact hat _ _ h1
    | 2 => exact hat _ _ h2
    | 3 => exact hat _ _ h3
    | 4 => exact hat _ _ h4
    | 5 => exact hat _ _ h5
    | k + 6 => exact List.getElem?_eq_none (by omega)
  by_cases hb : o.idxOf .before1 < o.idxOf .before2
  · by_cases ha : o.idxOf .after1 < o.idxOf .after2
    · rw [hparts (x := .before1) (y := .before2) (z := .after1) (w := .after2) (by omega)
        (by omega) (by omega) (by omega) (by omega) (by omega)]
      decide
    · rw [hparts (x := .before1) (y := .before2) (z := .after2) (w := .after1) (by omega)
        (by omega) (by omega) (by omega) (by omega) (by omega)]
      decide
  · by_cases ha : o.idxOf .after1 < o.idxOf .after2
    · rw [hparts (x := .before2) (y := .before1) (z := .after1) (w := .after2) (by omega)
        (by omega) (by omega) (by omega) (by omega) (by omega)]
      decide
    · rw [hparts (x := .before2) (y := .before1) (z := .after2) (w := .after1) (by omega)
        (by omega) (by omega) (by omega) (by omega) (by omega)]
      decide

/-- A run that prints in this order. -/
theorem exists_output {o : List Message} (ho : o ∈ outputs) :
    ∃ ls t, rendezvous.Reaches ls t ∧ ¬ rendezvous.CanMove t ∧ output ls = o := by
  have hall : ∀ {o'} ls, (rendezvous.exec ls rendezvous.init).any
      (fun t => decide (∀ i, (rendezvous.next i t).isNone)) = true → output ls = o' →
      ∃ ls t, rendezvous.Reaches ls t ∧ ¬ rendezvous.CanMove t ∧ output ls = o' := by
    intro o' ls h hout
    obtain ⟨t, ht, hstuck⟩ := exists_stuck ls h
    exact ⟨ls, t, ht, hstuck, hout⟩
  let start : List Thread := [.main, .main, .main]
  let arrive1 : List Thread := [.child1, .child1, .child1, .child1]
  let arrive2 : List Thread := [.child2, .child2, .child2]
  let leave1 : List Thread := [.child1, .child1]
  let leave2 : List Thread := [.child2, .child2]
  simp only [outputs, List.mem_cons, List.not_mem_nil, or_false] at ho
  rcases ho with rfl | rfl | rfl | rfl
  · exact hall (start ++ arrive1 ++ arrive2 ++ leave1 ++ leave2 ++ start) (by decide +kernel)
      (by decide +kernel)
  · exact hall (start ++ arrive1 ++ arrive2 ++ leave2 ++ leave1 ++ start) (by decide +kernel)
      (by decide +kernel)
  · exact hall (start ++ arrive2 ++ arrive1 ++ leave1 ++ leave2 ++ start) (by decide +kernel)
      (by decide +kernel)
  · exact hall (start ++ arrive2 ++ arrive1 ++ leave2 ++ leave1 ++ start) (by decide +kernel)
      (by decide +kernel)

/-- **The rendezvous**: every schedule brings all three threads to their end, in 17
statements, and prints one of the four outputs in which both children print their first
message before either prints its second; and each of the four is printed by some schedule. -/
theorem rendezvous_outputs :
    rendezvous.EndsWithin 17 (fun ls s => finished s = true ∧ output ls ∈ outputs)
      ∧ ∀ o ∈ outputs, ∃ ls t, rendezvous.Reaches ls t ∧ ¬ rendezvous.CanMove t
        ∧ output ls = o := by
  refine ⟨?_, fun o ho => exists_output ho⟩
  obtain ⟨t, ht, hstuck, hfinished⟩ := exists_finished
  have hends := rendezvous_commutes.endsWithin ht hstuck
  refine ⟨hends.length_le, fun {ls s} hrun hstuck' => ?_⟩
  obtain ⟨rfl, -, hperm⟩ := hends.ended hrun hstuck'
  have hperm : (output ls).Perm (output schedule) := hperm
  have hschedule : output schedule
      = [.parentBegin, .before1, .before2, .after2, .after1, .parentEnd] := by decide +kernel
  rw [hschedule] at hperm
  have hmem : ∀ m : Message, m ∈ output ls := fun m =>
    hperm.mem_iff.mpr (by cases m <;> decide)
  have hlt : ∀ {a b}, Before a b → (output ls).idxOf a < (output ls).idxOf b := fun h =>
    h ls s hrun (hmem _)
  refine ⟨hfinished, mem_outputs (hperm.trans (by decide)) ?_ ?_ ?_ ?_⟩
  · exact ⟨hlt begin_first.1, hlt begin_first.2⟩
  · exact ⟨hlt before1_first.1, hlt before1_first.2⟩
  · exact ⟨hlt before2_first.1, hlt before2_first.2⟩
  · exact ⟨hlt after_first.1, hlt after_first.2⟩

end CAdvanced.Rendezvous
