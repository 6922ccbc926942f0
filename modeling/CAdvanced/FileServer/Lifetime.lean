import CAdvanced.FileServer.Model
import CAdvanced.FileServerMain.Lifetime

/-!
# FileServer — Lifetime

When `file-server.c` handles its resources well: exactly as long as nothing goes wrong.
Every error branch frees the record and falls through, so by the time the program waits
in `select` again, or has ended, it has used the freed record or freed it twice.
-/

namespace CAdvanced.FileServer

open Interleave System Heap FileServerMain

/-- The errors of `main`: `createServer` fails, or the body of the loop meets an error. -/
def troubled (a : Answer FileCall) (c : Conf) : Bool :=
  match c.pc with
  | .create _ => a.rc < 0
  | .body p => p.troubled serverCode a c.state
  | _ => false

/-- Between the `accept` of a client and the end of the body. -/
def Pc.serving : Pc → Bool
  | .body .read | .body .readClose | .body .readExit | .body .readFile | .body .nullClose
  | .body .nullExit | .body .close => true
  | _ => false

/-- The program waits for a client, or has ended. -/
def Pc.settled : Pc → Bool
  | .body .select | .exited => true
  | _ => false

/-- **What the program promises**: the record is freed at most once and not used after
that, and every accepted descriptor is closed at most once, and once it has been served,
exactly once. -/
structure Intact (c : Conf) : Prop where
  server : c.state.server.Sound
  closes_le : ∀ x ∈ c.state.accepted, x.closes ≤ 1
  closed : c.pc.serving = false → ∀ x ∈ c.state.accepted, x.closes = 1

/-- What holds at a point as long as there was no error. -/
def Pc.Good (s : State Resources) : Pc → Prop
  | .create _ | .loopTest | .finalExit => Calm s
  | .createExit => False
  | .body p => p.Good s
  | .exited => s.server.Done ∧ ∀ x ∈ s.accepted, x.closes = 1

/-- What holds at a point after an error. -/
def Pc.Marked (s : State Resources) : Pc → Prop
  | .create _ => False
  | .createExit => True
  | .loopTest | .finalExit => Spoilt s
  | .body p => p.Marked s
  | .exited => ¬ s.server.Sound

theorem good_step {junk : Nat → Int} {a : Answer FileCall} {c c' : Conf}
    (h : c.pc.Good c.state) (hnext : next junk a c = some c') (hok : troubled a c = false) :
    c'.pc.Good c'.state := by
  obtain ⟨pc, s⟩ := c
  cases pc with
  | create p =>
      have hcalm : Calm (createServer a s p).1 := createServer_calm h p
      have hrc : ¬ a.rc < 0 := of_decide_eq_false hok
      cases hnext
      cases p <;> simp only [createServer, if_neg hrc] <;> exact hcalm
  | createExit => exact h.elim
  | loopTest =>
      cases hnext
      dsimp only
      split
      · exact h
      · exact h
  | body p =>
      cases hnext
      exact Ctl.resume_of (body_good h hok)
  | finalExit =>
      cases hnext
      exact ⟨h.server.free, h.closed⟩
  | exited => cases hnext

theorem marked_step {junk : Nat → Int} {a : Answer FileCall} {c c' : Conf}
    (hnext : next junk a c = some c')
    (h : c.pc.Marked c.state ∨ troubled a c = true) : c'.pc.Marked c'.state := by
  obtain ⟨pc, s⟩ := c
  cases pc with
  | create p =>
      have hrc : a.rc < 0 := of_decide_eq_true (h.resolve_left id)
      cases hnext
      cases p <;> simp only [createServer, if_pos hrc] <;> trivial
  | createExit =>
      cases hnext
      exact spoilt_cleanExit
  | loopTest =>
      cases hnext
      have hbad : Spoilt s := h.resolve_right nofun
      dsimp only
      split
      · exact hbad
      · exact hbad
  | body p =>
      cases hnext
      exact Ctl.resume_of (body_marked h)
  | finalExit =>
      cases hnext
      exact (show Spoilt s from h.resolve_right nofun).free
  | exited => cases hnext

/-! ## From the points to the promise -/

theorem Pc.Good.intact {c : Conf} (h : c.pc.Good c.state) : Intact c := by
  obtain ⟨pc, s⟩ := c
  have hcalm : Calm s → Intact ⟨pc, s⟩ := fun hcalm =>
    ⟨hcalm.server.sound, fun x hx => Nat.le_of_eq (hcalm.closed x hx), fun _ => hcalm.closed⟩
  have hserving : Serving s → pc.serving = true → Intact ⟨pc, s⟩ := by
    intro hserving hpc
    refine ⟨hserving.server.sound, ?_, fun hnot => absurd (hpc.symm.trans hnot) nofun⟩
    obtain ⟨rest, haccepted, hrest⟩ := hserving.client
    show ∀ x ∈ s.accepted, x.closes ≤ 1
    rw [haccepted]
    exact List.forall_mem_cons.mpr ⟨Nat.zero_le 1, fun x hx => Nat.le_of_eq (hrest x hx)⟩
  cases pc with
  | create _ | loopTest | finalExit => exact hcalm h
  | createExit => exact h.elim
  | exited => exact ⟨h.1.sound, fun x hx => Nat.le_of_eq (h.2 x hx), fun _ => h.2⟩
  | body p =>
      cases p with
      | fdSet | selectArg | select | testStdin | testServer | accept => exact hcalm h
      | read | readFile | close => exact hserving h rfl
      | _ => exact h.elim

theorem Pc.Marked.not_intact {c : Conf} (h : c.pc.Marked c.state) (hc : c.pc.settled = true) :
    ¬ Intact c := by
  obtain ⟨pc, s⟩ := c
  intro hintact
  cases pc with
  | exited => exact h hintact.server
  | body p =>
      cases p with
      | select => exact h hintact.server
      | _ => cases hc
  | _ => cases hc

/-- **The lifetime of the server**: a run without an error keeps the promise at every
step; and whenever the program waits for a client or has ended, it has kept it only if
there was no error. -/
theorem server_lifetime_iff (junk : Nat → Int) {ls : List (Answer FileCall)} {c : Conf}
    (h : (main junk).Reaches ls c) :
    ((main junk).count troubled ls = 0 → Intact c)
      ∧ (c.pc.settled = true → (Intact c ↔ (main junk).count troubled ls = 0)) := by
  have hgood : (main junk).count troubled ls = 0 → Intact c := by
    intro hok
    have hstart : start.pc.Good start.state := ⟨Cell.live_new 0, nofun⟩
    exact (exec_of_tally_eq_zero (S := main junk) (I := fun c => c.pc.Good c.state)
      good_step hstart h hok).intact
  refine ⟨hgood, fun hc => ⟨fun hintact => ?_, hgood⟩⟩
  by_contra hbad
  have hmarked := exec_of_tally_ne_zero (S := main junk) (J := fun c => c.pc.Marked c.state)
    marked_step h (.inr hbad)
  exact hmarked.not_intact hc hintact

/-- A request for a file that is there; the program waits for the next one. -/
theorem server_lifetime_iff_served :
    ∃ ls c, (main fun _ => 0).Reaches ls c ∧ c.state.accepted = [⟨4, 1⟩] ∧ Intact c := by
  let ls : List (Answer FileCall) :=
    List.replicate 9 ⟨3, [3], ⟨true, [104], true, 1⟩⟩
      ++ List.replicate 7 ⟨4, [], ⟨true, [104], true, 1⟩⟩
  obtain ⟨c, hrun, hc⟩ := Option.any_eq_true _ _ |>.mp
    (show ((main fun _ => 0).exec ls start).any (fun c =>
      c.pc.settled = true ∧ c.state.accepted = [⟨4, 1⟩]) = true by decide +kernel)
  obtain ⟨hsettled, haccepted⟩ := of_decide_eq_true hc
  have hok : (main fun _ => 0).count troubled ls = 0 := by decide +kernel
  exact ⟨ls, c, hrun, haccepted, ((server_lifetime_iff _ hrun).2 hsettled).mpr hok⟩

/-- A request for a file that is not there: the client's descriptor is closed twice,
the record is freed, and the next iteration reads it. -/
theorem not_server_lifetime :
    ¬ ∀ junk ls c, (main junk).Reaches ls c → Intact c := by
  intro hall
  obtain ⟨c, hrun, hc⟩ := Option.any_eq_true _ _ |>.mp
    (show ((main fun _ => 0).exec (List.replicate 9 ⟨3, [3], ⟨false, [], false, 0⟩⟩
        ++ List.replicate 8 ⟨4, [], ⟨false, [], false, 0⟩⟩) start).any (fun c =>
      c.state.accepted = [⟨4, 2⟩] ∧ c.state.server.frees = 1 ∧ c.state.server.lateUses = 1)
      = true by decide +kernel)
  obtain ⟨-, -, hlate⟩ := of_decide_eq_true hc
  have hintact := hall _ _ c hrun
  exact absurd (hlate.symm.trans hintact.server.lateUses) nofun

end CAdvanced.FileServer
