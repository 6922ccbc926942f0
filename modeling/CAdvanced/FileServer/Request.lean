import CAdvanced.CText.CString
import Mathlib.Data.List.TakeDrop
import Mathlib.Data.UInt

/-!
# FileServer — Request

A request of `file-server-client.c` and what `main` of `file-server.c` makes of it. The
client sends the path with its NUL; the server fills its buffer with NULs, reads once, cuts
the text off at a newline, and opens the file of that name. The connection is a stream: how
many bytes the one read gets is not up to the client (`Segments`).
-/

namespace CAdvanced.FileServer

open CText

/-- `BUFFERSIZE`. -/
def bufferSize : Nat := 4096

/-- `'\n'`. -/
def newline : UInt8 := 10

/-! ## The client -/

/-- A path for the client: an argument of the program that is not empty, has no newline in it and
leaves room for its NUL in the buffer of the server. (No argument has a NUL in it.) -/
structure Path where
  bytes : List UInt8
  ne_nil : bytes ≠ []
  nul_notMem : 0 ∉ bytes
  newline_notMem : newline ∉ bytes
  length_lt : bytes.length < bufferSize

/-- `send(descriptor, path, strlen(path) + 1)`. -/
def sendPath (path : Path) : List UInt8 := path.bytes ++ [0]

/-! ## The connection -/

/-- How a stream of bytes arrives: in pieces, each of which is what one read returns. -/
structure Segments (sent : List UInt8) where
  pieces : List (List UInt8)
  flatten_eq : pieces.flatten = sent
  ne_nil : ∀ p ∈ pieces, p ≠ []
  length_le : ∀ p ∈ pieces, p.length ≤ bufferSize

/-- What the first read returns. -/
def Segments.first {sent : List UInt8} (s : Segments sent) : List UInt8 := s.pieces.headD []

theorem Segments.first_eq {sent : List UInt8} (s : Segments sent) :
    s.first = sent.take s.first.length := by
  obtain ⟨pieces, hflatten, -, -⟩ := s
  subst hflatten
  cases pieces with
  | nil => rfl
  | cons p ps => simp [Segments.first]

/-! ## The server -/

/-- The memory from `inputBuffer` on. -/
structure Memory where
  inputBuffer : List UInt8
  beyond : List UInt8
  length_eq : inputBuffer.length = bufferSize

/-- `bzero(inputBuffer, BUFFERSIZE)`. -/
def bzero (m : Memory) : List UInt8 := List.replicate bufferSize 0 ++ m.beyond

/-- `read(clientFiledescriptor, inputBuffer, BUFFERSIZE)`, of these bytes. -/
def readInto (bytes memory : List UInt8) : List UInt8 := bytes ++ memory.drop bytes.length

/-- What `main` does with the bytes of a request: the path that it passes to
`readFromFile`. -/
def requestPath (m : Memory) (bytes : List UInt8) : Option (List UInt8) :=
  let memory := readInto bytes (bzero m)
  (strchr newline memory).bind fun pos =>
    cstr (match pos with
      | some k => memory.set k 0
      | none => memory)

/-- The path that is opened for a request that arrives in these pieces. -/
def openedPath {sent : List UInt8} (m : Memory) (s : Segments sent) : Option (List UInt8) :=
  requestPath m s.first

/-! ## Any request

What a client may send as well: text without an end, bytes behind a newline or a NUL.
-/

/-- The text of a request: what stands before the first newline or NUL. -/
def requestText (bytes : List UInt8) : List UInt8 := before newline bytes

/-- The search for the newline, which it makes a NUL: what there is from `inputBuffer` on
afterwards, and `pos`. -/
def cutAtNewline (memory : List UInt8) : Option (List UInt8 × Option Nat) :=
  (strchr newline memory).map fun pos =>
    (match pos with
      | some k => memory.set k 0
      | none => memory, pos)

theorem requestPath_eq_cut (m : Memory) (bytes : List UInt8) :
    requestPath m bytes = (cutAtNewline (readInto bytes (bzero m))).bind fun r => cstr r.1 := by
  unfold requestPath cutAtNewline
  dsimp only
  rw [Option.bind_map]
  rfl

/-- A newline or a NUL behind the text: afterwards it is a NUL. -/
theorem cutAtNewline_append {text : List UInt8} (hnewline : newline ∉ text) (hnul : 0 ∉ text)
    {b : UInt8} (hb : b = newline ∨ b = 0) (rest : List UInt8) :
    cutAtNewline (text ++ b :: rest)
      = some (text ++ 0 :: rest, if b = newline then some text.length else none) := by
  unfold cutAtNewline
  rcases hb with rfl | rfl
  · rw [strchr_found hnewline hnul, if_pos rfl, Option.map_some]
    dsimp only
    rw [List.set_append_right _ _ (Nat.le_refl _), Nat.sub_self, List.set_cons_zero]
  · rw [strchr_string hnewline (by decide) hnul, if_neg (by decide), Option.map_some]

theorem requestText_notMem (bytes : List UInt8) :
    newline ∉ requestText bytes ∧ 0 ∉ requestText bytes := notMem_before newline bytes

/-- Bytes that do not fill a buffer, or have a `c` or a NUL, are stopped by one in the
buffer: after `bzero` and `read`, with a buffer of any size. -/
theorem readInto_eq (c : UInt8) {bytes : List UInt8} {size : Nat} (hle : bytes.length ≤ size)
    (hend : bytes.length < size ∨ c ∈ bytes ∨ 0 ∈ bytes) (beyond : List UInt8) :
    ∃ b rest, (b = c ∨ b = 0) ∧ (before c bytes).length < size
      ∧ readInto bytes (List.replicate size 0 ++ beyond) = before c bytes ++ b :: rest := by
  unfold readInto
  by_cases hmem : c ∈ bytes ∨ 0 ∈ bytes
  · obtain ⟨b, rest, hb, heq⟩ := eq_before_append hmem
    have hlength := congrArg List.length heq
    rw [List.length_append, List.length_cons] at hlength
    generalize before c bytes = text at heq hlength ⊢
    subst heq
    exact ⟨b, _, hb, by omega, List.append_assoc _ _ _⟩
  · obtain ⟨hc, hnul⟩ := not_or.mp hmem
    have hlt : bytes.length < size := hend.resolve_right hmem
    obtain ⟨k, hk⟩ : ∃ k, size - bytes.length = k + 1 := ⟨size - bytes.length - 1, by omega⟩
    rw [before_eq_self hc hnul,
      List.drop_append_of_le_length (by rw [List.length_replicate]; exact hle),
      List.drop_replicate, hk, List.replicate_succ]
    exact ⟨0, _, .inr rfl, hlt, rfl⟩

/-- **The path of any request** that does not fill the buffer, or has an end, is its
text. -/
theorem requestPath_eq {bytes : List UInt8} (hle : bytes.length ≤ bufferSize)
    (hend : bytes.length < bufferSize ∨ newline ∈ bytes ∨ 0 ∈ bytes) (m : Memory) :
    requestPath m bytes = some (requestText bytes) := by
  obtain ⟨b, rest, hb, -, hmemory⟩ := readInto_eq newline hle hend m.beyond
  obtain ⟨hnewline, hnul⟩ := requestText_notMem bytes
  have hcut := cutAtNewline_append hnewline hnul hb rest
  rw [requestPath_eq_cut, bzero, hmemory]
  show (cutAtNewline (requestText bytes ++ b :: rest)).bind _ = _
  rw [hcut, Option.bind_some]
  exact cstr_string hnul rest

/-! ## The round trip -/

theorem requestText_take (path : Path) (n : Nat) :
    requestText ((sendPath path).take n) = path.bytes.take n := by
  unfold requestText sendPath
  by_cases hn : n ≤ path.bytes.length
  · rw [List.take_append_of_le_length hn]
    exact before_eq_self (fun h => path.newline_notMem (List.mem_of_mem_take h))
      (fun h => path.nul_notMem (List.mem_of_mem_take h))
  · rw [List.take_of_length_le (by simp; omega), List.take_of_length_le (by omega),
      before_append path.newline_notMem path.nul_notMem, before_cons, if_pos (.inr rfl),
      List.append_nil]

/-- What has been read of a path: as long as its NUL has not come, there is one behind it
in the buffer. -/
theorem requestPath_take (m : Memory) (path : Path) (n : Nat) :
    requestPath m ((sendPath path).take n) = some (path.bytes.take n) := by
  have hlt := path.length_lt
  have hlength : (sendPath path).length = path.bytes.length + 1 := List.length_append
  rw [← requestText_take path n]
  by_cases hn : n ≤ path.bytes.length
  · have htake : ((sendPath path).take n).length < bufferSize :=
      Nat.lt_of_le_of_lt (Nat.le_trans (List.length_take_le n _) hn) hlt
    exact requestPath_eq (Nat.le_of_lt htake) (.inl htake) m
  · rw [List.take_of_length_le (by omega)]
    have hnul : 0 ∈ sendPath path := List.mem_append_right _ List.mem_cons_self
    exact requestPath_eq (by omega) (.inr (.inr hnul)) m

/-- **What the server opens** is as much of the path as the first read has got. -/
theorem openedPath_eq (m : Memory) (path : Path) (s : Segments (sendPath path)) :
    openedPath m s = some (path.bytes.take s.first.length) := by
  have htake := requestPath_take m path s.first.length
  rwa [← s.first_eq] at htake

/-- **The round trip** succeeds just when the first read gets the whole path; the NUL behind
it may come later. -/
theorem request_round_trip_iff (m : Memory) (path : Path) (s : Segments (sendPath path)) :
    openedPath m s = some path.bytes ↔ path.bytes.length ≤ s.first.length := by
  rw [openedPath_eq, Option.some.injEq]
  exact List.take_eq_self_iff _

/-- The path `ab` arrives in two pieces, and the file `a` is opened. -/
theorem not_request_round_trip :
    ¬ ∀ (m : Memory) (path : Path) (s : Segments (sendPath path)),
      openedPath m s = some path.bytes := by
  intro hall
  let path : Path := ⟨[97, 98], by decide, by decide, by decide, by decide⟩
  let s : Segments (sendPath path) := ⟨[[97], [98, 0]], rfl, by decide, by decide⟩
  let m : Memory := ⟨List.replicate bufferSize 0, [], List.length_replicate⟩
  have hopened := (openedPath_eq m path s).symm.trans (hall m path s)
  exact absurd hopened (by decide)

end CAdvanced.FileServer
