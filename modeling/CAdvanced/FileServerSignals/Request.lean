import CAdvanced.FileServer.Request

/-!
# FileServerSignals — Request

What `main` makes of a request in `file-server-async.c` and in `file-server-signals.c`,
which have the same code there. It is the code of `file-server.c` with a smaller buffer, but
what is passed on is not `path`: it is `pos`, the result of the search for the newline.
-/

namespace CAdvanced.FileServerSignals

open CText
open FileServer (newline readInto cutAtNewline requestPath requestText requestText_notMem
  readInto_eq requestPath_eq cutAtNewline_append)

/-- `BUFFERSIZE`. -/
def bufferSize : Nat := 256

/-- The memory from `inputBuffer` on. -/
structure Memory where
  inputBuffer : List UInt8
  beyond : List UInt8
  length_eq : inputBuffer.length = bufferSize

/-- `bzero(inputBuffer, BUFFERSIZE)`. -/
def bzero (m : Memory) : List UInt8 := List.replicate bufferSize 0 ++ m.beyond

/-- A `char *` as an argument: NULL, or what the string at the address is, if it ends. -/
inductive Argument where
  | null
  | string (s : Option (List UInt8))
  deriving DecidableEq, Repr

/-- The argument of `AsyncreadFromFile`: `pos`, when the newline is a NUL. -/
def asyncArgument (m : Memory) (bytes : List UInt8) : Option Argument :=
  (cutAtNewline (readInto bytes (bzero m))).map fun r =>
    match r.2 with
    | none => .null
    | some k => .string (cstr (r.1.drop k))

/-- **The same file** is looked up by the two: the one whose name is the text of the
request. -/
structure SameFile (server : FileServer.Memory) (m : Memory) (bytes : List UInt8) : Prop where
  path : requestPath server bytes = some (requestText bytes)
  argument : asyncArgument m bytes = some (.string (some (requestText bytes)))

/-- Whatever the text, the argument is the empty string at its end, or NULL. -/
theorem asyncArgument_eq {m : Memory} {bytes rest : List UInt8} {b : UInt8}
    (hb : b = newline ∨ b = 0)
    (hmemory : readInto bytes (bzero m) = requestText bytes ++ b :: rest) :
    asyncArgument m bytes = some (if b = newline then .string (some []) else .null) := by
  obtain ⟨hnewline, hnul⟩ := requestText_notMem bytes
  unfold asyncArgument
  rw [hmemory, cutAtNewline_append hnewline hnul hb, Option.map_some]
  rcases hb with rfl | rfl
  · rw [if_pos rfl, if_pos rfl]
    dsimp only
    rw [List.drop_left]
    rfl
  · rw [if_neg (by decide), if_neg (by decide)]

/-- The first byte in the buffer: of the request, or of those that `bzero` has put there. -/
theorem readInto_head (m : Memory) (bytes : List UInt8) :
    (readInto bytes (bzero m)).head? = some (bytes.headD 0) := by
  cases bytes with
  | nil => rfl
  | cons b bytes => rfl

/-- The string at a newline is the text of the request only for a text without bytes. -/
theorem empty_at_newline_iff {m : Memory} {bytes rest : List UInt8} {b : UInt8}
    (hmemory : readInto bytes (bzero m) = requestText bytes ++ b :: rest) :
    (b = newline ∧ requestText bytes = []) ↔ bytes.head? = some newline := by
  have hhead := readInto_head m bytes
  rw [hmemory] at hhead
  cases bytes with
  | nil =>
      constructor
      · rintro ⟨rfl, -⟩
        exact absurd (Option.some.inj hhead) (by decide)
      · intro h
        cases h
  | cons x bytes =>
      constructor
      · rintro ⟨rfl, hempty⟩
        rw [hempty] at hhead
        exact hhead.symm
      · intro h
        cases h
        have hempty : requestText (newline :: bytes) = [] := by
          rw [requestText, before_cons, if_pos (.inl rfl)]
        rw [hempty] at hhead
        exact ⟨Option.some.inj hhead, hempty⟩

/-- **The same file is looked up** just when the request starts with a newline, and the file
is the one without a name. -/
theorem same_file_iff (server : FileServer.Memory) (m : Memory) {bytes : List UInt8}
    (h : bytes.length < bufferSize) :
    SameFile server m bytes ↔ bytes.head? = some newline := by
  have hlt : bytes.length < FileServer.bufferSize := Nat.lt_trans h (by decide)
  have hpath := requestPath_eq (Nat.le_of_lt hlt) (.inl hlt) server
  obtain ⟨b, rest, hb, -, hmemory⟩ := readInto_eq newline (Nat.le_of_lt h) (.inl h) m.beyond
  have hargument := asyncArgument_eq hb hmemory
  rw [← empty_at_newline_iff hmemory]
  constructor
  · rintro ⟨-, hsame⟩
    rw [hargument] at hsame
    split at hsame
    · next hb =>
      have hempty : some [] = some (requestText bytes) :=
        Argument.string.inj (Option.some.inj hsame)
      exact ⟨hb, (Option.some.inj hempty).symm⟩
    · cases hsame
  · rintro ⟨rfl, hempty⟩
    refine ⟨hpath, ?_⟩
    rw [hargument, if_pos rfl, hempty]

/-- A line without a name. -/
theorem same_file_iff_empty :
    SameFile ⟨List.replicate FileServer.bufferSize 0, [], List.length_replicate⟩
      ⟨List.replicate bufferSize 0, [], List.length_replicate⟩ [newline] :=
  (same_file_iff ⟨List.replicate FileServer.bufferSize 0, [], List.length_replicate⟩
    ⟨List.replicate bufferSize 0, [], List.length_replicate⟩ (by decide)).mpr rfl

/-- The line `a`: the server that reads it with `AsyncreadFromFile` opens the file without
a name. -/
theorem not_same_file :
    ¬ ∀ (server : FileServer.Memory) (m : Memory) (bytes : List UInt8),
      bytes.length < bufferSize → SameFile server m bytes := by
  intro hall
  have hsame := hall ⟨List.replicate FileServer.bufferSize 0, [], List.length_replicate⟩
    ⟨List.replicate bufferSize 0, [], List.length_replicate⟩ [97, newline] (by decide)
  exact absurd hsame.argument (by decide +kernel)

end CAdvanced.FileServerSignals
