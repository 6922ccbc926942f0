import CAdvanced.FileServer.Model

/-!
# FileServer — Resources

What `file-server.c` keeps of a request. `readFromFile` closes its FILE only at its end, not
in its two later error returns; and the buffer that it returns is `tmp` in `main`, which
never frees it.
-/

namespace CAdvanced.FileServer

open Interleave System FileServerMain

/-- A `fopen` that succeeds. -/
def opensFile (a : Answer FileCall) (c : Conf) : Bool :=
  c.pc = .body .readFile && a.file.opened

/-- **An iteration keeps nothing**: at the test of the main loop no FILE is open and no
buffer is unfreed, as before the first iteration. -/
def KeepsNothing (c : Conf) : Prop := c.pc = .loopTest → c.state.own = start.state.own

/-! ## One step -/

/-- FILEs and buffers are the business of `readFromFile`. -/
theorem next_own {junk : Nat → Int} {a : Answer FileCall} {c c' : Conf}
    (h : next junk a c = some c') :
    c'.state.own
      = if c.pc = .body .readFile then (readFromFile a.file c.state.own).2 else c.state.own := by
  obtain ⟨pc, s⟩ := c
  cases pc with
  | create p =>
      cases h
      cases p <;> rfl
  | createExit | loopTest | finalExit =>
      cases h
      rfl
  | body p =>
      cases h
      cases p with
      | select | accept =>
          rw [if_neg nofun]
          dsimp only [body]
          split <;> rfl
      | readFile => rfl
      | _ => rfl
  | exited => cases h

theorem own_of_not_opensFile {junk : Nat → Int} {a : Answer FileCall} {c c' : Conf}
    (h : next junk a c = some c') (hno : opensFile a c = false) :
    c'.state.own = c.state.own := by
  rw [next_own h]
  split
  · next hpc =>
    rw [opensFile, decide_eq_true hpc, Bool.true_and] at hno
    exact readFromFile_of_not_opened hno _
  · rfl

/-- Something of a request has been kept. -/
def Holds (c : Conf) : Prop := 0 < c.state.own.files + c.state.own.buffers

theorem holds_step {junk : Nat → Int} {a : Answer FileCall} {c c' : Conf}
    (h : next junk a c = some c') (hc : Holds c ∨ opensFile a c = true) : Holds c' := by
  cases hopens : opensFile a c with
  | false =>
      have hheld : Holds c := hc.resolve_right fun htrue => absurd (hopens.symm.trans htrue) nofun
      unfold Holds
      rw [own_of_not_opensFile h hopens]
      exact hheld
  | true =>
      obtain ⟨hpc, hopened⟩ := Bool.and_eq_true_iff.mp hopens
      have hgrows := readFromFile_of_opened hopened c.state.own
      unfold Holds
      rw [next_own h, if_pos (of_decide_eq_true hpc)]
      exact Nat.lt_of_le_of_lt (Nat.zero_le _) hgrows

/-! ## A run -/

theorem own_of_count {junk : Nat → Int} {ls : List (Answer FileCall)} {c : Conf}
    (h : (main junk).Reaches ls c) (hno : (main junk).count opensFile ls = 0) :
    c.state.own = start.state.own :=
  exec_of_tally_eq_zero (S := main junk) (I := fun c => c.state.own = start.state.own)
    (fun hown hnext hopens => (own_of_not_opensFile hnext hopens).trans hown) rfl h hno

/-- **Nothing is kept** as long as no file can be opened; and a request whose file is opened
leaves something behind, whatever comes of it. -/
theorem keeps_nothing_iff (junk : Nat → Int) {ls : List (Answer FileCall)} {c : Conf}
    (h : (main junk).Reaches ls c) :
    ((main junk).count opensFile ls = 0 → (main junk).Throughout KeepsNothing ls start)
      ∧ (c.pc = .loopTest → ((main junk).Throughout KeepsNothing ls start
          ↔ (main junk).count opensFile ls = 0)) := by
  have hkeeps : (main junk).count opensFile ls = 0 →
      (main junk).Throughout KeepsNothing ls start := by
    rintro hno ls' c' ⟨rest, rfl⟩ hrun -
    have hsplit : (main junk).count opensFile (ls' ++ rest)
        = (main junk).count opensFile ls' + (main junk).tally opensFile rest c' :=
      tally_append hrun
    have hprefix : (main junk).count opensFile ls' = 0 :=
      Nat.eq_zero_of_add_eq_zero_right (hsplit.symm.trans hno)
    exact own_of_count hrun hprefix
  refine ⟨hkeeps, fun hpc => ⟨fun hall => ?_, hkeeps⟩⟩
  by_contra hopens
  have hheld : Holds c := exec_of_tally_ne_zero (S := main junk) (J := Holds)
    holds_step h (.inr hopens)
  have hown : c.state.own = start.state.own := hall.last h hpc
  rw [Holds, hown] at hheld
  exact absurd hheld (by decide)

/-- A request for a file that is not there, up to the next iteration. -/
theorem keeps_nothing_iff_missing :
    ∃ ls c, (main fun _ => 0).Reaches ls c ∧ c.pc = .loopTest ∧ c.state.accepted = [⟨4, 2⟩]
      ∧ (main fun _ => 0).Throughout KeepsNothing ls start := by
  let ls : List (Answer FileCall) :=
    List.replicate 9 ⟨3, [3], ⟨false, [], false, 0⟩⟩
      ++ List.replicate 6 ⟨4, [], ⟨false, [], false, 0⟩⟩
  obtain ⟨c, hrun, hc⟩ := Option.any_eq_true _ _ |>.mp
    (show ((main fun _ => 0).exec ls start).any (fun c =>
      c.pc = .loopTest ∧ c.state.accepted = [⟨4, 2⟩]) = true by decide +kernel)
  obtain ⟨hpc, haccepted⟩ := of_decide_eq_true hc
  have hno : (main fun _ => 0).count opensFile ls = 0 := by decide +kernel
  exact ⟨ls, c, hrun, hpc, haccepted, ((keeps_nothing_iff _ hrun).2 hpc).mpr hno⟩

/-- A request for a file that is there: when it has been served, its buffer is unfreed. -/
theorem not_keeps_nothing :
    ¬ ∀ junk ls c, (main junk).Reaches ls c → (main junk).Throughout KeepsNothing ls start := by
  intro hall
  obtain ⟨c, hrun, hc⟩ := Option.any_eq_true _ _ |>.mp
    (show ((main fun _ => 0).exec (List.replicate 9 ⟨3, [3], ⟨true, [104], true, 1⟩⟩
        ++ List.replicate 4 ⟨4, [], ⟨true, [104], true, 1⟩⟩) start).any (fun c =>
      c.pc = .loopTest ∧ c.state.own = ⟨0, 1⟩) = true by decide +kernel)
  obtain ⟨hpc, hown⟩ := of_decide_eq_true hc
  have hnothing := (hall _ _ c hrun).last hrun hpc
  exact absurd (hown.symm.trans hnothing) (by decide)

end CAdvanced.FileServer
