import CAdvanced.CText.CString
import CAdvanced.FileServer.Request
import Mathlib.Data.UInt

/-!
# SimpleServer — Messages

The loop of `simple-server.c`: fill the buffer with NULs, read a message into it, print it.
The buffer is an array of 256 pointers; `bzero` clears 256 bytes of it, and `read` may fill
all of its 2048. So a message that goes on behind the cleared part is printed with whatever
stands behind its end: a byte of the last message that reached so far, or of what has been
there from the beginning (`leftover`).
-/

namespace CAdvanced.SimpleServer

open CText
open FileServer (readInto)

/-- `sizeof(buffer)`: 256 pointers. -/
def bufferSize : Nat := 256 * 8

/-- How many bytes `bzero(buffer, 256)` clears. -/
def clearedSize : Nat := 256

/-- `buffer`. -/
structure Buffer where
  bytes : List UInt8
  length_eq : bytes.length = bufferSize

/-- What one `read` gets. -/
structure Message where
  bytes : List UInt8
  length_le : bytes.length ≤ bufferSize

/-- `bzero(buffer, 256)`. -/
def bzero (buffer : List UInt8) : List UInt8 :=
  List.replicate clearedSize 0 ++ buffer.drop clearedSize

theorem length_readInto_bzero (b : Buffer) (msg : Message) :
    (readInto msg.bytes (bzero b.bytes)).length = bufferSize := by
  have hb := b.length_eq
  have hmsg := msg.length_le
  unfold readInto bzero
  rw [List.length_append, List.length_drop, List.length_append, List.length_drop,
    List.length_replicate, hb]
  unfold bufferSize clearedSize at *
  omega

/-- One round, up to the `read`. -/
def receive (b : Buffer) (msg : Message) : Buffer :=
  ⟨readInto msg.bytes (bzero b.bytes), length_readInto_bzero b msg⟩

/-- `printf("Received data: %s\n", buffer)`, with what stands behind the buffer: the text, if
it comes to an end, and how many bytes are looked at. -/
def printed (b : Buffer) (beyond : List UInt8) : Option (List UInt8) × Nat :=
  (cstr (b.bytes ++ beyond), strlenLooks (b.bytes ++ beyond))

/-- The buffer after these messages. -/
def buffer (init : Buffer) (msgs : List Message) : Buffer := msgs.foldl receive init

/-- The text of a message: up to its first NUL, or its end. -/
def Message.text (msg : Message) : List UInt8 := before 0 msg.bytes

/-- **What a round should print**: the text of its message, and nothing looks past the
buffer. -/
structure Unmixed (b : Buffer) (msg : Message) (beyond : List UInt8) : Prop where
  text : (printed (receive b msg) beyond).1 = some msg.text
  inside : (printed (receive b msg) beyond).2 ≤ bufferSize

/-- The byte that stands at the place `p`, which is not cleared, after these messages. -/
def leftover (init : Buffer) (p : Nat) (msgs : List Message) : Option UInt8 :=
  msgs.foldl (fun old msg => msg.bytes[p]?.or old) init.bytes[p]?

/-- The message has an end: a NUL of its own, one that has been cleared, or one that happens
to stand behind it. -/
def Ends (init : Buffer) (earlier : List Message) (msg : Message) : Prop :=
  0 ∈ msg.bytes ∨ msg.bytes.length < clearedSize
    ∨ leftover init msg.bytes.length earlier = some 0

/-! ## What stands in the buffer -/

theorem getElem?_bzero {buffer : List UInt8} {p : Nat} (hp : clearedSize ≤ p) :
    (bzero buffer)[p]? = buffer[p]? := by
  unfold bzero
  rw [List.getElem?_append_right (by rw [List.length_replicate]; exact hp), List.getElem?_drop,
    List.length_replicate, Nat.add_sub_cancel' hp]

/-- A message leaves alone what stands behind it and is not cleared. -/
theorem getElem?_receive (b : Buffer) (msg : Message) {p : Nat} (hp : clearedSize ≤ p) :
    (receive b msg).bytes[p]? = msg.bytes[p]?.or b.bytes[p]? := by
  show (msg.bytes ++ (bzero b.bytes).drop msg.bytes.length)[p]? = _
  rcases Nat.lt_or_ge p msg.bytes.length with hlt | hge
  · rw [List.getElem?_append_left hlt, List.getElem?_eq_getElem hlt]
    rfl
  · rw [List.getElem?_append_right hge, List.getElem?_drop, List.getElem?_eq_none hge,
      Option.none_or, Nat.add_sub_cancel' hge, getElem?_bzero hp]

theorem getElem?_buffer (init : Buffer) (msgs : List Message) {p : Nat} (hp : clearedSize ≤ p) :
    (buffer init msgs).bytes[p]? = leftover init p msgs := by
  unfold buffer leftover
  generalize hold : init.bytes[p]? = old
  induction msgs generalizing init old with
  | nil => exact hold
  | cons msg msgs ih =>
      rw [List.foldl_cons, List.foldl_cons]
      apply ih
      rw [getElem?_receive init msg hp, hold]

/-! ## One round -/

variable {b : Buffer} {msg : Message} {beyond : List UInt8}

/-- A text that ends in the buffer. -/
theorem unmixed_of_nul {text rest : List UInt8} (htext : 0 ∉ text) (hmsg : msg.text = text)
    (hlt : text.length < bufferSize)
    (h : (receive b msg).bytes ++ beyond = text ++ 0 :: rest) : Unmixed b msg beyond := by
  refine ⟨?_, ?_⟩
  · show cstr ((receive b msg).bytes ++ beyond) = some msg.text
    rw [h, cstr_string htext, hmsg]
  · show strlenLooks ((receive b msg).bytes ++ beyond) ≤ bufferSize
    rw [h, strlenLooks_string htext]
    exact hlt

/-- A message with a NUL. -/
theorem unmixed_of_mem (hmem : 0 ∈ msg.bytes) : Unmixed b msg beyond := by
  obtain ⟨x, rest, hx, heq⟩ := eq_before_append (c := 0) (.inl hmem)
  obtain rfl : x = 0 := hx.elim id id
  have hle := msg.length_le
  rw [heq, List.length_append, List.length_cons] at hle
  apply unmixed_of_nul (notMem_before 0 msg.bytes).1 rfl (by omega)
  show msg.bytes ++ (bzero b.bytes).drop msg.bytes.length ++ beyond = _
  conv_lhs => rw [heq]
  rw [List.append_assoc, List.append_assoc, List.cons_append]

/-- Without one, the byte behind the message decides. -/
theorem unmixed_iff (hmem : 0 ∉ msg.bytes) :
    Unmixed b msg beyond ↔ (bzero b.bytes)[msg.bytes.length]? = some 0 := by
  have htext : msg.text = msg.bytes := before_eq_self hmem hmem
  have hlength := length_readInto_bzero b msg
  have hmemory : (receive b msg).bytes ++ beyond
      = msg.bytes ++ ((bzero b.bytes).drop msg.bytes.length ++ beyond) := List.append_assoc _ _ _
  have hhead : (bzero b.bytes)[msg.bytes.length]?
      = ((bzero b.bytes).drop msg.bytes.length).head? := List.head?_drop.symm
  unfold readInto at hlength
  rw [List.length_append] at hlength
  rw [hhead]
  generalize (bzero b.bytes).drop msg.bytes.length = tail at hmemory hlength
  cases tail with
  | nil =>
      -- the message fills the buffer
      rw [List.length_nil, Nat.add_zero] at hlength
      constructor
      · intro h
        have hinside : strlenLooks ((receive b msg).bytes ++ beyond) ≤ bufferSize := h.inside
        have hlooks := lt_strlenLooks hmem ([] ++ beyond)
        rw [← hmemory] at hlooks
        omega
      · intro h
        cases h
  | cons x tail =>
      rw [List.head?_cons, Option.some.injEq]
      constructor
      · intro h
        by_contra hx
        have hstr : cstr ((receive b msg).bytes ++ beyond) = some msg.text := h.text
        rw [hmemory, htext] at hstr
        exact cstr_ne hmem hx _ hstr
      · rintro rfl
        rw [List.length_cons] at hlength
        exact unmixed_of_nul hmem htext (by omega) hmemory

theorem unmixed_iff_ends (init : Buffer) (earlier : List Message) :
    Unmixed (buffer init earlier) msg beyond ↔ Ends init earlier msg := by
  unfold Ends
  by_cases hmem : 0 ∈ msg.bytes
  · exact iff_of_true (unmixed_of_mem hmem) (.inl hmem)
  · rw [unmixed_iff hmem]
    rcases Nat.lt_or_ge msg.bytes.length clearedSize with hlt | hge
    · refine iff_of_true ?_ (.inr (.inl hlt))
      unfold bzero
      rw [List.getElem?_append_left (by rw [List.length_replicate]; exact hlt),
        List.getElem?_replicate, if_pos hlt]
    · rw [getElem?_bzero hge, getElem?_buffer init earlier hge]
      constructor
      · exact fun h => .inr (.inr h)
      · exact fun h => (h.resolve_left hmem).resolve_left (Nat.not_lt.mpr hge)

/-- **The messages are kept apart** just when each of them has an end: every round prints the
text of its message, whatever has come before it and whatever stands behind the buffer. -/
theorem messages_unmixed_iff (init : Buffer) (msgs : List Message) (beyond : Nat → List UInt8) :
    (∀ k msg, msgs[k]? = some msg → Unmixed (buffer init (msgs.take k)) msg (beyond k))
      ↔ ∀ k msg, msgs[k]? = some msg → Ends init (msgs.take k) msg :=
  forall₂_congr fun _ _ => imp_congr_right fun _ => unmixed_iff_ends init _

/-- A message of 300 bytes, and then one of 260: the last 40 bytes of the first are printed
with the second. -/
theorem not_messages_unmixed :
    ¬ ∀ (init : Buffer) (msgs : List Message) (beyond : Nat → List UInt8) (k : Nat)
      (msg : Message), msgs[k]? = some msg →
        Unmixed (buffer init (msgs.take k)) msg (beyond k) := by
  intro hall
  let init : Buffer := ⟨List.replicate bufferSize 0, List.length_replicate⟩
  let first : Message := ⟨List.replicate 300 97, by rw [List.length_replicate]; decide⟩
  let second : Message := ⟨List.replicate 260 98, by rw [List.length_replicate]; decide⟩
  have h := (unmixed_iff_ends init [first]).mp
    (hall init [first, second] (fun _ => []) 1 second rfl)
  rcases h with hnul | hshort | hleft
  · exact absurd (List.eq_of_mem_replicate hnul) (by decide)
  · exact absurd hshort (by decide +kernel)
  · exact absurd hleft (by decide +kernel)

end CAdvanced.SimpleServer
