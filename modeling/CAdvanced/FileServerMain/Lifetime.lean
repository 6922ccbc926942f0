import CAdvanced.FileServerMain.Model

/-!
# FileServerMain — Lifetime

The typestate of `server` and of the client's descriptor along the body of the main
loop. Each error branch calls `cleanExit` and falls through, so from the first error on
(`Body.troubled`) the record is freed in front of a point that uses it or frees it again:
`Body.Good` is what holds at the points that are reached without an error, `Body.Marked`
what holds at the others, and both are carried from one point to the next.
-/

namespace CAdvanced.FileServerMain

open Interleave Heap

variable {ε α : Type} {k : ServerCode ε α} {junk : Nat → Int} {a : Answer α} {s : State ε}

/-- The errors of the body: `select`, `accept` and `read` fail, or no file is read. -/
def Body.troubled (k : ServerCode ε α) (a : Answer α) (s : State ε) : Body → Bool
  | .select | .accept | .read => a.rc < 0
  | .readFile => !(k.readFile a.file s.own).1
  | _ => false

/-! ## Without an error -/

/-- The server is there, and every accepted descriptor has been closed once. -/
structure Calm (s : State ε) : Prop where
  server : s.server.Live
  closed : ∀ x ∈ s.accepted, x.closes = 1

/-- The server is there, and of the accepted descriptors all are closed but that of the
client that is being served. -/
structure Serving (s : State ε) : Prop where
  server : s.server.Live
  client : ∃ rest, s.accepted = ⟨s.clientFiledescriptor, 0⟩ :: rest ∧ ∀ x ∈ rest, x.closes = 1

/-- What holds at a point that is reached without an error. -/
def Body.Good (s : State ε) : Body → Prop
  | .fdSet | .selectArg | .select | .testStdin | .testServer | .accept => Calm s
  | .read | .readFile | .close => Serving s
  | _ => False

theorem Serving.close (h : Serving s) : Calm (s.close s.clientFiledescriptor) := by
  obtain ⟨rest, haccepted, hrest⟩ := h.client
  refine ⟨h.server, ?_⟩
  show ∀ x ∈ closeDescriptor s.clientFiledescriptor s.accepted, x.closes = 1
  rw [haccepted, closeDescriptor, if_pos rfl]
  exact List.forall_mem_cons.mpr ⟨rfl, hrest⟩

/-- **A step without an error** leads from a good point to a good one. -/
theorem body_good {p : Body} (h : p.Good s) (hok : p.troubled k a s = false) :
    (body k junk a s p).2.resume (fun q => q.Good (body k junk a s p).1)
      (Calm (body k junk a s p).1) := by
  cases p with
  | fdSet | selectArg => exact ⟨h.server.use, h.closed⟩
  | select =>
      have hrc : ¬ a.rc < 0 := of_decide_eq_false hok
      rw [body, if_neg hrc]
      exact ⟨h.server, h.closed⟩
  | testStdin => exact ⟨h.server, h.closed⟩
  | testServer =>
      have hcalm : Calm s.touch := ⟨h.server.use, h.closed⟩
      dsimp only [body]
      split
      · exact hcalm
      · exact hcalm
  | accept =>
      have hrc : ¬ a.rc < 0 := of_decide_eq_false hok
      rw [body, if_neg hrc]
      exact ⟨h.server.use, s.accepted, rfl, h.closed⟩
  | read =>
      have hrc : ¬ a.rc < 0 := of_decide_eq_false hok
      rw [body, if_neg hrc]
      exact h
  | readFile =>
      have hread : (k.readFile a.file s.own).1 = true := by simpa [Body.troubled] using hok
      dsimp only [body]
      rw [if_pos hread]
      exact ⟨h.server, h.client⟩
  | close => exact h.close
  | _ => exact h.elim

/-! ## After an error -/

/-- The record has been freed, or worse. -/
def Spoilt (s : State ε) : Prop := 1 ≤ s.server.frees ∨ ¬ s.server.Sound

/-- What holds at a point that is reached after an error: where no use lies between here
and the next `select`, the record has already been used too late or freed twice. -/
def Body.Marked (s : State ε) : Body → Prop
  | .selectClose | .selectExit | .acceptClose | .acceptExit | .readClose | .readExit
  | .nullClose | .nullExit => True
  | .selectArg | .select => ¬ s.server.Sound
  | _ => Spoilt s

theorem Spoilt.use (h : Spoilt s) : ¬ s.touch.server.Sound := by
  rcases h with hfreed | hbad
  · exact Cell.not_sound_use hfreed
  · exact fun hsound => hbad (hsound.of_older (Cell.older_use _))

theorem Spoilt.free (h : Spoilt s) : ¬ (s.cleanExit k).server.Sound := by
  rcases h with hfreed | hbad
  · exact Cell.not_sound_free hfreed
  · exact fun hsound => hbad (hsound.of_older (Cell.older_free _))

theorem spoilt_cleanExit : Spoilt (s.cleanExit k) := .inl (Nat.le_add_left 1 _)

/-- **A step after an error**, or one that meets it, leads to a marked point. -/
theorem body_marked {p : Body} (h : p.Marked s ∨ p.troubled k a s = true) :
    (body k junk a s p).2.resume (fun q => q.Marked (body k junk a s p).1)
      (Spoilt (body k junk a s p).1) := by
  cases p with
  | selectClose | acceptClose | readClose | nullClose => trivial
  | selectExit | acceptExit | readExit | nullExit => exact spoilt_cleanExit
  | fdSet => exact (h.resolve_right nofun).use
  | selectArg =>
      have hbad : Spoilt s := .inr (h.resolve_right nofun)
      exact hbad.use
  | select =>
      by_cases hrc : a.rc < 0
      · rw [body, if_pos hrc]
        trivial
      · rw [body, if_neg hrc]
        exact .inr (h.resolve_right (by simp [Body.troubled, hrc]))
  | testStdin => exact h.resolve_right nofun
  | testServer =>
      have hbad : Spoilt s.touch := .inr (h.resolve_right nofun).use
      dsimp only [body]
      split
      · exact hbad
      · exact hbad
  | accept =>
      by_cases hrc : a.rc < 0
      · rw [body, if_pos hrc]
        trivial
      · rw [body, if_neg hrc]
        exact .inr (h.resolve_right (by simp [Body.troubled, hrc])).use
  | read =>
      by_cases hrc : a.rc < 0
      · rw [body, if_pos hrc]
        trivial
      · rw [body, if_neg hrc]
        exact h.resolve_right (by simp [Body.troubled, hrc])
  | readFile =>
      dsimp only [body]
      by_cases hread : (k.readFile a.file s.own).1 = true
      · rw [if_pos hread]
        exact h.resolve_right (by simp [Body.troubled, hread])
      · rw [if_neg hread]
        trivial
  | close => exact h.resolve_right nofun

/-! ## `createServer` -/

/-- The record is there as long as `createServer` runs, and no client has come. -/
theorem createServer_calm (h : Calm s) (p : CreateServer) : Calm (createServer a s p).1 := by
  cases p with
  | socket => exact ⟨h.server.store _, h.closed⟩
  | bind | listen => exact ⟨h.server.use, h.closed⟩

end CAdvanced.FileServerMain
