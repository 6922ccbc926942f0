import CAdvanced.FileServer.Request
import CAdvanced.FileServer.Response

/-!
# FileServer — Exchange

One exchange between `file-server-client.c` and `file-server.c`, from the path that the client
is given to the text that it prints. The client calls `recv` once, into a buffer that nothing
has been written to, and prints that buffer as a string: so what it prints is what the server
has sent just when that call gets the NUL as well.
-/

namespace CAdvanced.FileServer

open CText FileServerMain

/-- What the server sends for a request that arrives in these pieces: `m` is its memory from
`inputBuffer` on, `files` are the files by their paths, `r` is what it holds, and `after` is
what its memory holds behind the file. -/
def serverSends {sent : List UInt8} (m : Memory) (request : Segments sent)
    (files : List UInt8 → FileCall) (r : Resources) (after : List UInt8) : Written :=
  match openedPath m request with
  | none => ⟨none, 0⟩
  | some path => respond (readFromFile (files path) r).1 after

/-- `recv(client->descriptor, buffer, BUFFERSIZE, 0)` gets these bytes, and then the buffer is
printed with `%s`. -/
def clientPrints (buffer : Memory) (bytes : List UInt8) : Option (List UInt8) :=
  cstr (readInto bytes (buffer.inputBuffer ++ buffer.beyond))

/-- What the client is told when its file could not be read. -/
def errorText : List UInt8 := "Error while reading file\n".toUTF8.data.toList

/-! ## The server -/

/-- What is passed to `write` is a string with its NUL, the one that stands at `memory`. -/
theorem writeToClient_passed {memory p : List UInt8} :
    (writeToClient memory).passed = some p
      ↔ ∃ text rest, 0 ∉ text ∧ memory = text ++ 0 :: rest ∧ p = text ++ [0] := by
  constructor
  · intro h
    by_cases hnul : 0 ∈ memory
    · obtain ⟨text, rest, rfl, htext⟩ := List.eq_append_cons_of_mem hnul
      rw [writeToClient_append htext] at h
      exact ⟨text, rest, htext, rfl, (Option.some.inj h).symm⟩
    · have hnone : strlen memory = none := by
        have happend := strlen_append hnul []
        rwa [List.append_nil] at happend
      rw [writeToClient, hnone] at h
      cases h
  · rintro ⟨text, rest, htext, rfl, rfl⟩
    rw [writeToClient_append htext]

/-- A file that could be read is sent up to its first NUL, or to the first one behind it. -/
theorem respond_passed (f : FileCall) (r : Resources) (after : List UInt8) {text : List UInt8}
    (htext : 0 ∉ text) : (respond (readFromFile f r).1 after).passed = some (text ++ [0])
      ↔ (f.Succeeds ∧ text ++ [0] <+: f.content ++ after) ∨ (¬ f.Succeeds ∧ text = errorText) := by
  by_cases hf : f.Succeeds
  · rw [readFromFile_of_succeeds hf, respond, writeToClient_passed]
    constructor
    · rintro ⟨text', rest, -, hmemory, htext'⟩
      rw [List.append_cancel_right htext', hmemory]
      exact .inl ⟨hf, rest, List.append_assoc _ _ _⟩
    · rintro (⟨-, rest, hrest⟩ | ⟨hnot, -⟩)
      · exact ⟨text, rest, htext, hrest.symm.trans (List.append_assoc _ _ _), rfl⟩
      · exact absurd hf hnot
  · have herror : (writeToClient (errorText ++ [0])).passed = some (errorText ++ [0]) := by
      rw [writeToClient_append (by decide)]
    rw [readFromFile_of_fails hf, respond, ← errorText, herror, Option.some.injEq]
    constructor
    · exact fun h => .inr ⟨hf, (List.append_cancel_right h).symm⟩
    · rintro (⟨hsucceeds, -⟩ | ⟨-, rfl⟩)
      · exact absurd hsucceeds hf
      · rfl

/-! ## The client -/

/-- A buffer that holds nothing but `b`, as does what is behind it. -/
def filled (b : UInt8) : Memory := ⟨List.replicate bufferSize b, [b], List.length_replicate⟩

/-- Behind what has been received there is still some of what the buffer held. -/
theorem readInto_filled (b : UInt8) {bytes : List UInt8} (hle : bytes.length ≤ bufferSize) :
    ∃ rest, readInto bytes ((filled b).inputBuffer ++ (filled b).beyond) = bytes ++ b :: rest := by
  have hall : (filled b).inputBuffer ++ (filled b).beyond = List.replicate (bufferSize + 1) b :=
    List.replicate_succ'.symm
  refine ⟨List.replicate (bufferSize - bytes.length) b, ?_⟩
  rw [readInto, hall, List.drop_replicate, Nat.sub_add_comm hle, List.replicate_succ]

/-- **What the client prints** does not depend on what its buffer held before just when the
call of `recv` gets the NUL of the text. -/
theorem clientPrints_iff {bytes text : List UInt8} (hle : bytes.length ≤ bufferSize)
    (hbytes : 0 ∉ bytes ∨ ∃ text', 0 ∉ text' ∧ bytes = text' ++ [0]) :
    (∀ buffer, clientPrints buffer bytes = some text) ↔ 0 ∉ text ∧ bytes = text ++ [0] := by
  have hstring : ∀ text' : List UInt8, 0 ∉ text' → ∀ buffer,
      clientPrints buffer (text' ++ [0]) = some text' := by
    intro text' htext' buffer
    rw [clientPrints, readInto, List.append_assoc, List.singleton_append]
    exact cstr_string htext' _
  constructor
  · intro hall
    rcases hbytes with hnul | ⟨text', htext', rfl⟩
    · -- a buffer of NULs ends the text here, and any other goes on
      exfalso
      obtain ⟨rest, hzeros⟩ := readInto_filled 0 hle
      obtain ⟨rest', hones⟩ := readInto_filled 1 hle
      have hsame := hall (filled 0)
      rw [clientPrints, hzeros, cstr_string hnul] at hsame
      have hother := hall (filled 1)
      rw [clientPrints, hones, ← hsame] at hother
      exact cstr_ne hnul (by decide) rest' hother
    · rw [← Option.some.inj ((hstring text' htext' (filled 0)).symm.trans (hall (filled 0)))]
      exact ⟨htext', rfl⟩
  · rintro ⟨htext, rfl⟩
    exact hstring text htext

theorem Segments.first_length_le {sent : List UInt8} (s : Segments sent) :
    s.first.length ≤ bufferSize := by
  obtain ⟨pieces, -, -, hle⟩ := s
  cases pieces with
  | nil => exact Nat.zero_le _
  | cons p ps => exact hle p List.mem_cons_self

/-- The first piece of a string has its NUL only if it is all of it. -/
theorem first_of_string {w : Written} {message sent : List UInt8} (hw : w = writeToClient message)
    (hsent : w.passed.getD [] = sent) (s : Segments sent) :
    0 ∉ s.first ∨ ∃ text, 0 ∉ text ∧ s.first = text ++ [0] ∧ w.passed = some (text ++ [0]) := by
  have hfirst := s.first_eq
  generalize s.first = bytes at hfirst ⊢
  rw [← hsent] at hfirst
  cases hp : w.passed with
  | none =>
      rw [hp, Option.getD_none, List.take_nil] at hfirst
      rw [hfirst]
      exact .inl List.not_mem_nil
  | some p =>
      obtain ⟨text, rest, htext, -, rfl⟩ := writeToClient_passed.mp (hw ▸ hp)
      rw [hp, Option.getD_some] at hfirst
      by_cases hk : bytes.length ≤ text.length
      · rw [List.take_append_of_le_length hk] at hfirst
        rw [hfirst]
        exact .inl fun hmem => htext (List.mem_of_mem_take hmem)
      · rw [List.take_of_length_le (by simp; omega)] at hfirst
        exact .inr ⟨text, htext, hfirst, rfl⟩

/-! ## Both together -/

variable {path : Path} {m : Memory} {files : List UInt8 → FileCall} {r : Resources}
  {after : List UInt8}

/-- **The exchange**: the client prints `text`, whatever its buffer held before, just when its
one `recv` gets all that the server sends, and that is `text` as a string: the beginning of
the file, and of what the server's memory holds behind it, up to the first NUL, or the error
text. The file is the one whose name is as much of the path as the server's one `read` gets. -/
theorem exchange_iff (request : Segments (sendPath path))
    (response : Segments ((serverSends m request files r after).passed.getD []))
    (text : List UInt8) :
    (∀ buffer, clientPrints buffer response.first = some text)
      ↔ 0 ∉ text ∧ response.first = text ++ [0]
        ∧ (((files (path.bytes.take request.first.length)).Succeeds
            ∧ text ++ [0] <+: (files (path.bytes.take request.first.length)).content ++ after)
          ∨ (¬ (files (path.bytes.take request.first.length)).Succeeds ∧ text = errorText)) := by
  have hsends : serverSends m request files r after
      = respond (readFromFile (files (path.bytes.take request.first.length)) r).1 after := by
    rw [serverSends, openedPath_eq]
  have hmessage : ∃ message, serverSends m request files r after = writeToClient message := by
    rw [hsends]
    unfold respond
    split <;> exact ⟨_, rfl⟩
  obtain ⟨message, hmessage⟩ := hmessage
  have hfirst := first_of_string hmessage rfl response
  rw [clientPrints_iff response.first_length_le
    (hfirst.imp_right fun ⟨text', htext', heq, _⟩ => ⟨text', htext', heq⟩)]
  refine and_congr_right fun htext => ⟨fun heq => ⟨heq, ?_⟩, And.left⟩
  rw [← respond_passed _ r after htext, ← hsends]
  rcases hfirst with hnul | ⟨text', -, heq', hpassed⟩
  · exact absurd (heq ▸ List.mem_append_right text List.mem_cons_self) hnul
  · rw [hpassed, ← heq', heq]

end CAdvanced.FileServer
