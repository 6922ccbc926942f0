import CAdvanced.FileServerSignals.Model

/-!
# FileServerSignals — Result

What `AsyncreadFromFile` returns, in `file-server-async.c` as in `file-server-signals.c`. It
reads the file a second time when `readFromFile` has failed, and takes every number of bytes
but 0 for an error; and what it returns at its end is an array of its own frame.
-/

namespace CAdvanced.FileServerSignals

open FileServerMain

/-- The asynchronous read fails: `open` returns a negative descriptor, `aio_read` fails, or
`aio_error` or `aio_return` reports an error. -/
def AsyncCall.AsyncFails (f : AsyncCall) : Prop :=
  f.file < 0 ∨ f.aioRead = -1 ∨ f.aioError ≠ 0 ∨ f.aioReturn < 0

/-- What `AsyncreadFromFile` itself takes for a failure. -/
def AsyncCall.GivesUp (f : AsyncCall) : Prop :=
  f.file = 0 ∨ f.aioRead = -1 ∨ f.aioError ≠ 0 ∨ f.aioReturn ≠ 0

/-- A buffer with these bytes, after the return: an array of the callee is gone by then. -/
def Returned.Holds : Returned → List UInt8 → Prop
  | .result content, bytes => content = bytes
  | .null, _ | .buffer, _ => False

/-- **The result that is due**: NULL just when both reads have failed, and otherwise a
buffer with what has been read; `bytes` are those that the asynchronous read delivers. -/
structure Right (f : AsyncCall) (bytes : List UInt8) (result : Returned) : Prop where
  null_iff : result = .null ↔ ¬ f.sync.Succeeds ∧ f.AsyncFails
  holds : result ≠ .null → result.Holds (if f.sync.Succeeds then f.sync.content else bytes)

theorem asyncreadFromFile_of_succeeds {f : AsyncCall} (h : f.sync.Succeeds) (r : Resources) :
    (asyncreadFromFile f r).1 = .result f.sync.content := by
  unfold asyncreadFromFile
  rw [readFromFile_of_succeeds h]

/-- The second attempt never comes to a buffer that lasts. -/
theorem asyncreadFromFile_of_fails {f : AsyncCall} (h : ¬ f.sync.Succeeds) (r : Resources) :
    f.GivesUp ∧ (asyncreadFromFile f r).1 = .null
      ∨ ¬ f.GivesUp ∧ (asyncreadFromFile f r).1 = .buffer := by
  have hnone := readFromFile_of_fails h r
  unfold asyncreadFromFile
  generalize readFromFile f.sync r = w at hnone ⊢
  obtain ⟨tmp, r'⟩ := w
  subst hnone
  dsimp only
  by_cases hfile : f.file = 0
  · exact .inl ⟨.inl hfile, by rw [if_pos hfile]⟩
  by_cases hread : f.aioRead = -1
  · exact .inl ⟨.inr (.inl hread), by rw [if_neg hfile, if_pos hread]⟩
  by_cases herror : f.aioError ≠ 0
  · exact .inl ⟨.inr (.inr (.inl herror)), by rw [if_neg hfile, if_neg hread, if_pos herror]⟩
  by_cases hreturn : f.aioReturn ≠ 0
  · exact .inl ⟨.inr (.inr (.inr hreturn)),
      by rw [if_neg hfile, if_neg hread, if_neg herror, if_pos hreturn]⟩
  · refine .inr ⟨?_, by rw [if_neg hfile, if_neg hread, if_neg herror, if_neg hreturn]⟩
    rintro (h | h | h | h)
    · exact hfile h
    · exact hread h
    · exact herror h
    · exact hreturn h

/-- **The result is right** just when the first read succeeds, or the second one fails in a
way that `AsyncreadFromFile` takes for a failure. -/
theorem right_iff (f : AsyncCall) (bytes : List UInt8) (r : Resources) :
    Right f bytes (asyncreadFromFile f r).1
      ↔ f.sync.Succeeds ∨ (f.AsyncFails
          ∧ (f.file = 0 ∨ f.aioRead = -1 ∨ f.aioError ≠ 0 ∨ f.aioReturn ≠ 0)) := by
  by_cases h : f.sync.Succeeds
  · rw [asyncreadFromFile_of_succeeds h]
    refine iff_of_true ⟨iff_of_false nofun fun hboth => hboth.1 h, fun _ => ?_⟩ (.inl h)
    rw [if_pos h]
    rfl
  · rcases asyncreadFromFile_of_fails h r with ⟨hup, hnull⟩ | ⟨hup, hbuffer⟩
    · rw [hnull]
      constructor
      · intro hright
        exact .inr ⟨(hright.null_iff.mp rfl).2, hup⟩
      · rintro (hsync | ⟨hfails, -⟩)
        · exact absurd hsync h
        · exact ⟨iff_of_true rfl ⟨h, hfails⟩, fun hne => absurd rfl hne⟩
    · rw [hbuffer]
      constructor
      · intro hright
        exact (hright.holds nofun).elim
      · rintro (hsync | ⟨-, hgivesUp⟩)
        · exact absurd hsync h
        · exact absurd hgivesUp hup

/-- There is no room for the first read; the second one delivers two bytes, and NULL is
returned. -/
theorem not_right :
    ¬ ∀ (f : AsyncCall) (bytes : List UInt8) (r : Resources),
      Right f bytes (asyncreadFromFile f r).1 := by
  intro hall
  have hright := hall ⟨⟨true, [104, 105], false, 0⟩, 3, 0, 0, 2⟩ [104, 105] ⟨0, 0⟩
  obtain ⟨-, hfails⟩ := hright.null_iff.mp rfl
  rcases hfails with h | h | h | h
  all_goals exact absurd h (by decide)

end CAdvanced.FileServerSignals
