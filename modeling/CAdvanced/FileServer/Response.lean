import CAdvanced.CText.CString
import CAdvanced.FileServerMain.Model
import Mathlib.Data.UInt

/-!
# FileServer — Response

How `main` of `file-server.c` answers a request. `readFromFile` returns a block of as many
bytes as the file has, and nothing about how many these are; `writeToClient` takes the block
for a C string, and goes by the first NUL that it finds there, or behind it.
-/

namespace CAdvanced.FileServer

open CText FileServerMain

/-- What `writeToClient` does: the bytes that it passes to `write`, and how many bytes it
looks at, from the start of the message on. -/
structure Written where
  passed : Option (List UInt8)
  looked : Nat
  deriving DecidableEq, Repr

/-- `writeToClient(descr, message)`, where `memory` is what there is from `message` on: the
call of `strlen`, and `write(descr, message, strlen(message) + 1)`. -/
def writeToClient (memory : List UInt8) : Written :=
  match strlen memory with
  | none => ⟨none, strlenLooks memory⟩
  | some n => ⟨some (memory.take (n + 1)), max (strlenLooks memory) (n + 1)⟩

/-- The answer in `main`, to what `readFromFile` has returned; `after` is what the memory
holds behind the block. -/
def respond (tmp : Option (List UInt8)) (after : List UInt8) : Written :=
  match tmp with
  | none => writeToClient ("Error while reading file\n".toUTF8.data.toList ++ [0])
  | some content => writeToClient (content ++ after)

/-- The file is served as it is: its bytes, and maybe a NUL, are passed on, and nothing is
looked at behind them. -/
structure AsItIs (content : List UInt8) (w : Written) : Prop where
  passed : w.passed = some content ∨ w.passed = some (content ++ [0])
  looked : w.looked ≤ content.length

/-- The last byte of the file is its only NUL. -/
def EndsInOnlyNul (content : List UInt8) : Prop :=
  0 ∉ content.dropLast ∧ content.getLast? = some 0

instance (content : List UInt8) : Decidable (EndsInOnlyNul content) :=
  inferInstanceAs (Decidable (_ ∧ _))

/-! ## What is written -/

/-- A text, its NUL, and anything behind it. -/
theorem writeToClient_append {text : List UInt8} (h : 0 ∉ text) (rest : List UInt8) :
    writeToClient (text ++ 0 :: rest) = ⟨some (text ++ [0]), text.length + 1⟩ := by
  have htake : (text ++ 0 :: rest).take (text.length + 1) = text ++ [0] := by
    rw [List.take_length_add_append]
    rfl
  unfold writeToClient
  rw [strlen_string h, strlenLooks_string h]
  dsimp only
  rw [htake, Nat.max_self]

/-- Without a NUL in the block, `strlen` looks at what is behind it. -/
theorem lt_looked {content : List UInt8} (h : 0 ∉ content) (after : List UInt8) :
    content.length < (writeToClient (content ++ after)).looked := by
  have hlooks := lt_strlenLooks h after
  unfold writeToClient
  split
  · exact hlooks
  · exact Nat.lt_of_lt_of_le hlooks (Nat.le_max_left _ _)

theorem endsInOnlyNul_iff {content : List UInt8} :
    EndsInOnlyNul content ↔ ∃ text, 0 ∉ text ∧ content = text ++ [0] := by
  constructor
  · rintro ⟨hnul, hlast⟩
    exact ⟨content.dropLast, hnul, (List.dropLast_append_getLast? 0 hlast).symm⟩
  · rintro ⟨text, hnul, rfl⟩
    exact ⟨by rwa [List.dropLast_concat], List.getLast?_concat⟩

/-- **One message**: the block is passed on as it is just when its last byte is its only
NUL, whatever is behind it. -/
theorem writeToClient_asItIs (content after : List UInt8) :
    AsItIs content (writeToClient (content ++ after)) ↔ EndsInOnlyNul content := by
  rw [endsInOnlyNul_iff]
  constructor
  · rintro ⟨hpassed, hlooked⟩
    by_cases hnul : 0 ∈ content
    · -- the first NUL must be the last byte
      obtain ⟨text, rest, rfl, htext⟩ := List.eq_append_cons_of_mem hnul
      rw [List.append_assoc, List.cons_append, writeToClient_append htext] at hpassed
      have hrest : rest = [] := by
        rcases hpassed with hsame | hmore
        · have hlength := congrArg List.length (Option.some.inj hsame)
          simp only [List.length_append, List.length_cons, List.length_nil] at hlength
          exact List.length_eq_zero_iff.mp (by omega)
        · have hlength := congrArg List.length (Option.some.inj hmore)
          simp only [List.length_append, List.length_cons, List.length_nil] at hlength
          omega
      rw [hrest]
      exact ⟨text, htext, rfl⟩
    · exact absurd hlooked (Nat.not_le.mpr (lt_looked hnul after))
  · rintro ⟨text, hnul, rfl⟩
    rw [List.append_assoc, List.singleton_append, writeToClient_append hnul]
    exact ⟨.inl rfl, by simp⟩

theorem content_of_readFromFile {f : FileCall} {r r' : Resources} {content : List UInt8}
    (h : readFromFile f r = (some content, r')) : content = f.content := by
  have hsucceeds : f.Succeeds := (readFromFile_isSome f r).mp (by rw [h]; rfl)
  rw [readFromFile_of_succeeds hsucceeds] at h
  cases h
  rfl

/-- **The file is served as it is** just when its last byte is its only NUL: whenever
`readFromFile` reads it without an error, and whatever is behind the block. -/
theorem file_as_it_is_iff {f : FileCall} {r r' : Resources} {tmp : List UInt8}
    (h : readFromFile f r = (some tmp, r')) (after : List UInt8) :
    AsItIs f.content (respond (readFromFile f r).1 after) ↔ EndsInOnlyNul f.content := by
  rw [h, respond, content_of_readFromFile h]
  exact writeToClient_asItIs f.content after

/-- A file that brings its NUL with it. -/
theorem file_as_it_is_iff_nul :
    AsItIs [104, 105, 0] (respond (readFromFile ⟨true, [104, 105, 0], true, 3⟩ ⟨0, 0⟩).1 [7]) :=
  (file_as_it_is_iff (f := ⟨true, [104, 105, 0], true, 3⟩) (r := ⟨0, 0⟩) rfl [7]).mpr (by decide)

/-- A text file has no NUL: `strlen` looks behind its block, and what it finds there is
passed on. -/
theorem not_file_as_it_is :
    ¬ ∀ (f : FileCall) (r r' : Resources) (tmp after : List UInt8),
      readFromFile f r = (some tmp, r') →
        AsItIs f.content (respond (readFromFile f r).1 after) := by
  intro hall
  have has := hall ⟨true, [104, 105], true, 2⟩ ⟨0, 0⟩ ⟨0, 1⟩ [104, 105] [7, 0] rfl
  exact absurd has.looked (by decide)

end CAdvanced.FileServer
