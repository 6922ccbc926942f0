import CAdvanced.FileServerSignals.Model
import CAdvanced.FileServerMain.Lifetime

/-!
# FileServerSignals — Shutdown

SIGINT ends the program in good order when it arrives anywhere but in `select`: the flag
is seen at the next test of the loop, and the final `log_message` and `cleanExit` are the
only ones. An interrupted `select`, like every other error, frees both objects and falls
through.
-/

namespace CAdvanced.FileServerSignals

open Interleave System Heap FileServerMain

/-- The errors of `main`: `createServer` fails, the body of the loop meets an error, or
SIGINT arrives while the program waits in `select`. -/
def troubled : Event → Conf → Bool
  | .sigint, c => c.pc = .body .select
  | .step a, c =>
      match c.pc with
      | .create _ => a.rc < 0
      | .body p => p.troubled serverCode a c.state
      | _ => false

/-- The program waits for a client, or has ended. -/
def Pc.settled : Pc → Bool
  | .body .select | .exited => true
  | _ => false

/-- **What the shutdown promises**: neither object is freed twice, `info` is not read and
`server->descriptor` not used after that, and at the end both have been freed once. -/
structure Intact (c : Conf) : Prop where
  server : c.state.server.Sound
  info : ∀ x ∈ c.state.own.info, x.Sound
  freed : c.pc = .exited → c.state.server.Done ∧ ∃ x, c.state.own.info = some x ∧ x.Done

/-- `info` is allocated. -/
def InfoLive (s : State Globals) : Prop := ∃ x, s.own.info = some x ∧ x.Live

/-- What holds at a point as long as there was no error. -/
def Pc.Good (s : State Globals) : Pc → Prop
  | .create _ | .signal => Calm s ∧ s.own.info = none
  | .loopTest | .logMessage | .finalLog | .finalExit => Calm s ∧ InfoLive s
  | .createExit => False
  | .body p => p.Good s ∧ InfoLive s
  | .exited => s.server.Done ∧ ∃ x, s.own.info = some x ∧ x.Done

/-- What holds at a point after an error. -/
def Pc.Marked (s : State Globals) : Pc → Prop
  | .create _ => False
  | .createExit => True
  | .signal | .loopTest | .logMessage | .finalLog | .finalExit => Spoilt s
  | .body p => p.Marked s
  | .exited => ¬ s.server.Sound

theorem InfoLive.log {s : State Globals} (h : InfoLive s) :
    InfoLive { s with own := logMessage s.own } := by
  obtain ⟨x, hx, hlive⟩ := h
  exact ⟨x.use, by simp only [logMessage, hx, Option.map_some], hlive.use⟩

/-- Without an error the body does not touch `info`. -/
theorem body_info {junk : Nat → Int} {a : Answer AsyncCall} {s : State Globals} {p : Body}
    (h : p.Good s) : (body serverCode junk a s p).1.own.info = s.own.info := by
  cases p with
  | select | accept =>
      dsimp only [body]
      split <;> rfl
  | fdSet | selectArg | testStdin | testServer | read | readFile | close => rfl
  | _ => exact h.elim

theorem resume_good {s : State Globals} {q : Ctl Body} (hinfo : InfoLive s)
    (h : q.resume (fun p => p.Good s) (Calm s)) : (q.resume Pc.body .loopTest).Good s := by
  cases q <;> exact ⟨h, hinfo⟩

theorem good_step {junk : Nat → Int} {a : Answer AsyncCall} {c c' : Conf}
    (h : c.pc.Good c.state) (hstep : step junk a c = some c')
    (hok : troubled (.step a) c = false) : c'.pc.Good c'.state := by
  obtain ⟨pc, s⟩ := c
  cases pc with
  | create p =>
      obtain ⟨hcalm, hinfo⟩ := h
      have hcalm' : Calm (createServer a s p).1 := createServer_calm hcalm p
      have hrc : ¬ a.rc < 0 := of_decide_eq_false hok
      cases hstep
      cases p <;> simp only [createServer, if_neg hrc] <;> exact ⟨hcalm', hinfo⟩
  | createExit => exact h.elim
  | signal =>
      cases hstep
      exact ⟨⟨h.1.server, h.1.closed⟩, _, rfl, Cell.live_new ()⟩
  | loopTest =>
      cases hstep
      dsimp only
      split
      · exact h
      · exact h
  | logMessage =>
      cases hstep
      exact ⟨⟨h.1.server, h.1.closed⟩, h.2.log⟩
  | body p =>
      cases hstep
      refine resume_good ?_ (body_good h.1 hok)
      obtain ⟨x, hx, hlive⟩ := h.2
      exact ⟨x, (body_info h.1).trans hx, hlive⟩
  | finalLog =>
      cases hstep
      exact ⟨⟨h.1.server, h.1.closed⟩, h.2.log⟩
  | finalExit =>
      cases hstep
      obtain ⟨hcalm, x, hx, hlive⟩ := h
      exact ⟨hcalm.server.free, x.free, by
        show Option.map Cell.free s.own.info = some x.free
        rw [hx]
        rfl, hlive.free⟩
  | exited => cases hstep

/-- **SIGINT outside of `select`** only sets the flag. -/
theorem good_sigint {c c' : Conf} (h : c.pc.Good c.state) (hsig : sigint c = some c')
    (hok : troubled .sigint c = false) : c'.pc.Good c'.state := by
  obtain ⟨pc, s⟩ := c
  have hok : pc ≠ .body .select := of_decide_eq_false hok
  cases pc with
  | body p =>
      have hgood : (Pc.body p).Good { s with own := handler s.own } := by
        refine ⟨?_, h.2⟩
        cases p with
        | fdSet | selectArg | select | testStdin | testServer | accept =>
            exact ⟨h.1.server, h.1.closed⟩
        | read | readFile | close => exact ⟨h.1.server, h.1.client⟩
        | _ => exact h.1.elim
      cases p with
      | select => exact absurd rfl hok
      | _ => cases hsig; exact hgood
  | loopTest | logMessage | finalLog | finalExit =>
      cases hsig
      exact ⟨⟨h.1.server, h.1.closed⟩, h.2⟩
  | _ => cases hsig

theorem marked_step {junk : Nat → Int} {a : Answer AsyncCall} {c c' : Conf}
    (hstep : step junk a c = some c')
    (h : c.pc.Marked c.state ∨ troubled (.step a) c = true) : c'.pc.Marked c'.state := by
  obtain ⟨pc, s⟩ := c
  cases pc with
  | create p =>
      have hrc : a.rc < 0 := of_decide_eq_true (h.resolve_left id)
      cases hstep
      cases p <;> simp only [createServer, if_pos hrc] <;> trivial
  | createExit =>
      cases hstep
      exact spoilt_cleanExit
  | signal | logMessage | finalLog =>
      cases hstep
      exact h.resolve_right nofun
  | loopTest =>
      cases hstep
      have hbad : Spoilt s := h.resolve_right nofun
      dsimp only
      split
      · exact hbad
      · exact hbad
  | body p =>
      cases hstep
      exact Ctl.resume_of (body_marked h)
  | finalExit =>
      cases hstep
      exact (show Spoilt s from h.resolve_right nofun).free
  | exited => cases hstep

theorem marked_sigint {c c' : Conf} (hsig : sigint c = some c')
    (h : c.pc.Marked c.state ∨ troubled .sigint c = true) : c'.pc.Marked c'.state := by
  obtain ⟨pc, s⟩ := c
  cases pc with
  | body p =>
      cases p with
      | select =>
          cases hsig
          trivial
      | _ =>
          cases hsig
          exact h.resolve_right (by simp [troubled])
  | loopTest | logMessage | finalLog | finalExit =>
      cases hsig
      exact h.resolve_right (by simp [troubled])
  | _ => cases hsig

/-! ## From the points to the promise -/

theorem Pc.Good.intact {c : Conf} (h : c.pc.Good c.state) : Intact c := by
  obtain ⟨pc, s⟩ := c
  have hlive : s.server.Live → InfoLive s → pc ≠ .exited → Intact ⟨pc, s⟩ := by
    intro hserver hinfo hpc
    refine ⟨hserver.sound, ?_, fun h => absurd h hpc⟩
    obtain ⟨x, hx, hlive⟩ := hinfo
    intro y hy
    rw [show (Conf.mk pc s).state.own.info = some x from hx] at hy
    cases hy
    exact hlive.sound
  have hnone : s.server.Live → s.own.info = none → pc ≠ .exited → Intact ⟨pc, s⟩ := by
    intro hserver hinfo hpc
    refine ⟨hserver.sound, ?_, fun h => absurd h hpc⟩
    intro y hy
    rw [show (Conf.mk pc s).state.own.info = none from hinfo] at hy
    cases hy
  cases pc with
  | create _ | signal => exact hnone h.1.server h.2 nofun
  | loopTest | logMessage | finalLog | finalExit => exact hlive h.1.server h.2 nofun
  | createExit => exact h.elim
  | exited =>
      refine ⟨h.1.sound, ?_, fun _ => h⟩
      obtain ⟨-, x, hx, hdone⟩ := h
      intro y hy
      rw [show (Conf.mk Pc.exited s).state.own.info = some x from hx] at hy
      cases hy
      exact hdone.sound
  | body p =>
      cases p with
      | fdSet | selectArg | select | testStdin | testServer | accept | read | readFile | close =>
          exact hlive h.1.server h.2 nofun
      | _ => exact h.1.elim

theorem Pc.Marked.not_intact {c : Conf} (h : c.pc.Marked c.state) (hc : c.pc.settled = true) :
    ¬ Intact c := by
  obtain ⟨pc, s⟩ := c
  intro hintact
  cases pc with
  | exited => exact h hintact.server
  | body p =>
      cases p with
      | select => exact h hintact.server
      | _ => cases hc
  | _ => cases hc

/-- **The shutdown**: a run without an error, in which SIGINT has not interrupted a
`select`, keeps the promise at every step; and whenever the program waits for a client
or has ended, it has kept it only then. -/
theorem shutdown_iff (junk : Nat → Int) {ls : List Event} {c : Conf}
    (h : (main junk).Reaches ls c) :
    ((main junk).count troubled ls = 0 → Intact c)
      ∧ (c.pc.settled = true → (Intact c ↔ (main junk).count troubled ls = 0)) := by
  have hgood : (main junk).count troubled ls = 0 → Intact c := by
    intro hok
    have hstart : start.pc.Good start.state := ⟨⟨Cell.live_new 0, nofun⟩, rfl⟩
    refine (exec_of_tally_eq_zero (S := main junk) (I := fun c => c.pc.Good c.state) ?_
      hstart h hok).intact
    intro l c c' hc hnext hl
    cases l with
    | step a => exact good_step hc hnext hl
    | sigint => exact good_sigint hc hnext hl
  refine ⟨hgood, fun hc => ⟨fun hintact => ?_, hgood⟩⟩
  by_contra hbad
  have hmarked : c.pc.Marked c.state := by
    refine exec_of_tally_ne_zero (S := main junk) (J := fun c => c.pc.Marked c.state)
      ?_ h (.inr hbad)
    intro l c c' hnext hl
    cases l with
    | step a => exact marked_step hnext hl
    | sigint => exact marked_sigint hnext hl
  exact hmarked.not_intact hc hintact

/-- SIGINT while a `select` that has returned is being looked at: the program ends, and
has freed both objects once. -/
theorem shutdown_iff_signalled :
    ∃ ls c, (main fun _ => 0).Reaches ls c ∧ c.pc = .exited ∧ .sigint ∈ ls ∧ Intact c := by
  let ls : List Event :=
    List.replicate 9 (.step ⟨3, [], ⟨⟨true, [104], true, 1⟩, 0, 0, 0, 0⟩⟩)
      ++ .sigint :: List.replicate 5 (.step ⟨3, [], ⟨⟨true, [104], true, 1⟩, 0, 0, 0, 0⟩⟩)
  obtain ⟨c, hrun, hc⟩ := Option.any_eq_true _ _ |>.mp
    (show ((main fun _ => 0).exec ls start).any (fun c => c.pc = .exited) = true by
      decide +kernel)
  have hexited := of_decide_eq_true hc
  have hok : (main fun _ => 0).count troubled ls = 0 := by decide +kernel
  have hsettled : c.pc.settled = true := by rw [hexited]; rfl
  exact ⟨ls, c, hrun, hexited, by simp [ls],
    ((shutdown_iff _ hrun).2 hsettled).mpr hok⟩

/-- SIGINT while the program is blocked in `select`: both objects are freed, and the
body goes on with `FD_ISSET(server->descriptor, &readfds)`. -/
theorem not_shutdown :
    ¬ ∀ junk ls c, (main junk).Reaches ls c → Intact c := by
  intro hall
  obtain ⟨c, hrun, hc⟩ := Option.any_eq_true _ _ |>.mp
    (show ((main fun _ => 0).exec
        (List.replicate 8 (.step ⟨3, [], ⟨⟨true, [], true, 0⟩, 0, 0, 0, 0⟩⟩)
          ++ .sigint :: List.replicate 4 (.step ⟨3, [], ⟨⟨true, [], true, 0⟩, 0, 0, 0, 0⟩⟩))
        start).any (fun c => c.state.server.frees = 1 ∧ c.state.server.lateUses = 1)
      = true by decide +kernel)
  obtain ⟨-, hlate⟩ := of_decide_eq_true hc
  have hintact := hall _ _ c hrun
  exact absurd (hlate.symm.trans hintact.server.lateUses) nofun

end CAdvanced.FileServerSignals
