import CAdvanced.FileServer.Request

/-!
# FileServer — Buffer

How far `main` of `file-server.c` looks into `inputBuffer`. `read` may fill the buffer, and
then there is no NUL in it but one that the client has sent. `DEBUG` is 1: the text is
printed and measured before its newline has become a NUL.
-/

namespace CAdvanced.FileServer

open CText

/-- The memory from `inputBuffer` on, when `read` has delivered these bytes. -/
def received (m : Memory) (bytes : List UInt8) : List UInt8 := readInto bytes (bzero m)

/-- Afterwards there is a NUL in the buffer, and the path is the text of the request. -/
structure Terminated (m : Memory) (bytes : List UInt8) : Prop where
  nul : ∃ r, cutAtNewline (received m bytes) = some r ∧ 0 ∈ r.1.take bufferSize
  path : requestPath m bytes = some (requestText bytes)

/-- **What the buffer has to be good for**: nothing looks past it, neither what prints and
measures the text as it has been received, nor the search, nor `fopen` afterwards. -/
structure Safe (m : Memory) (bytes : List UInt8) : Prop where
  terminated : Terminated m bytes
  printed : strlenLooks (received m bytes) ≤ bufferSize
  searched : strchrLooks newline (received m bytes) ≤ bufferSize
  opened : ∀ r, cutAtNewline (received m bytes) = some r → strlenLooks r.1 ≤ bufferSize

/-! ## A text with an end -/

section
variable {m : Memory} {bytes : List UInt8} (hle : bytes.length ≤ bufferSize)
include hle

/-- What the search comes to. -/
theorem received_cut (hend : bytes.length < bufferSize ∨ newline ∈ bytes ∨ 0 ∈ bytes) :
    ∃ b rest, (b = newline ∨ b = 0) ∧ (requestText bytes).length < bufferSize
      ∧ received m bytes = requestText bytes ++ b :: rest
      ∧ cutAtNewline (received m bytes) = some (requestText bytes ++ 0 :: rest,
          if b = newline then some (requestText bytes).length else none) := by
  obtain ⟨b, rest, hb, hlt, hmemory⟩ := readInto_eq newline hle hend m.beyond
  obtain ⟨hnewline, hnul⟩ := requestText_notMem bytes
  have hreceived : received m bytes = requestText bytes ++ b :: rest := hmemory
  have hcut := cutAtNewline_append hnewline hnul hb rest
  rw [← hreceived] at hcut
  exact ⟨b, rest, hb, hlt, hreceived, hcut⟩

theorem terminated_of_end (hend : bytes.length < bufferSize ∨ newline ∈ bytes ∨ 0 ∈ bytes) :
    Terminated m bytes := by
  obtain ⟨b, rest, -, hlt, -, hcut⟩ := received_cut (m := m) hle hend
  refine ⟨⟨_, hcut, ?_⟩, requestPath_eq hle hend m⟩
  obtain ⟨k, hk⟩ : ∃ k, bufferSize - (requestText bytes).length = k + 1 :=
    ⟨bufferSize - (requestText bytes).length - 1, by omega⟩
  rw [List.take_append, hk, List.take_succ_cons]
  exact List.mem_append_right _ List.mem_cons_self

theorem printed_of_nul (hend : bytes.length < bufferSize ∨ 0 ∈ bytes) :
    strlenLooks (received m bytes) ≤ bufferSize := by
  obtain ⟨b, rest, hb, hlt, hmemory⟩ := readInto_eq 0 hle (hend.imp_right .inr) m.beyond
  obtain ⟨-, hnul⟩ := notMem_before 0 bytes
  rw [show b = 0 from hb.elim id id] at hmemory
  have hreceived : received m bytes = before 0 bytes ++ 0 :: rest := hmemory
  rw [hreceived, strlenLooks_string hnul]
  exact hlt

theorem safe_of_nul (hend : bytes.length < bufferSize ∨ 0 ∈ bytes) : Safe m bytes := by
  have hany : bytes.length < bufferSize ∨ newline ∈ bytes ∨ 0 ∈ bytes := hend.imp_right .inr
  obtain ⟨b, rest, hb, hlt, hreceived, hcut⟩ := received_cut (m := m) hle hany
  obtain ⟨hnewline, hnul⟩ := requestText_notMem bytes
  refine ⟨terminated_of_end hle hany, printed_of_nul hle hend, ?_, ?_⟩
  · rw [hreceived, strchrLooks_stop hnewline hnul hb]
    exact hlt
  · intro r hr
    rw [hcut] at hr
    cases hr
    rw [strlenLooks_string hnul]
    exact hlt

end

/-! ## A full buffer -/

/-- What stands behind the buffer is read as part of it. -/
theorem received_full {bytes : List UInt8} (hfull : bytes.length = bufferSize) (m : Memory) :
    received m bytes = bytes ++ m.beyond := by
  unfold received readInto bzero
  rw [hfull, List.drop_left' List.length_replicate]

/-- The search goes on behind the buffer, and leaves the buffer as it is. -/
theorem take_cut_full {bytes : List UInt8} (hfull : bytes.length = bufferSize)
    (hnewline : newline ∉ bytes) (hnul : 0 ∉ bytes) {m : Memory} {r : List UInt8 × Option Nat}
    (h : cutAtNewline (received m bytes) = some r) : r.1.take bufferSize = bytes := by
  unfold cutAtNewline at h
  rw [received_full hfull, strchr_append hnewline hnul] at h
  cases hpos : strchr newline m.beyond with
  | none =>
      rw [hpos] at h
      cases h
  | some pos =>
      rw [hpos] at h
      cases h
      cases pos with
      | none => exact List.take_left' hfull
      | some k =>
          show ((bytes ++ m.beyond).set (k + bytes.length) 0).take bufferSize = bytes
          rw [List.set_append_right _ _ (Nat.le_add_left _ _), List.take_left' hfull]

theorem Terminated.stopped {m : Memory} {bytes : List UInt8} (hle : bytes.length ≤ bufferSize)
    (h : Terminated m bytes) : bytes.length < bufferSize ∨ newline ∈ bytes ∨ 0 ∈ bytes := by
  by_contra hno
  obtain ⟨hlt, hmem⟩ := not_or.mp hno
  obtain ⟨hnewline, hnul⟩ := not_or.mp hmem
  obtain ⟨r, hcut, hzero⟩ := h.nul
  rw [take_cut_full (by omega) hnewline hnul hcut] at hzero
  exact hnul hzero

theorem Safe.stopped {m : Memory} {bytes : List UInt8} (hle : bytes.length ≤ bufferSize)
    (h : Safe m bytes) : bytes.length < bufferSize ∨ 0 ∈ bytes := by
  by_contra hno
  obtain ⟨hlt, hnul⟩ := not_or.mp hno
  have hfull : bytes.length = bufferSize := by omega
  have hlooks := lt_strlenLooks hnul m.beyond
  rw [← received_full hfull m, hfull] at hlooks
  exact absurd h.printed (Nat.not_le.mpr hlooks)

/-! ## Every request -/

/-- **The buffer is safe** just when what is delivered does not fill it or has a NUL.
Should nothing be printed, a newline is enough. -/
theorem request_buffer_iff (m : Memory) (sent : List UInt8) {n : Nat} (hn : n ≤ bufferSize) :
    (Safe m (sent.take n) ↔ (sent.take n).length < bufferSize ∨ 0 ∈ sent.take n)
      ∧ (Terminated m (sent.take n)
          ↔ (sent.take n).length < bufferSize ∨ newline ∈ sent.take n ∨ 0 ∈ sent.take n) := by
  have hle : (sent.take n).length ≤ bufferSize := Nat.le_trans (List.length_take_le n sent) hn
  exact ⟨⟨Safe.stopped hle, safe_of_nul hle⟩, ⟨Terminated.stopped hle, terminated_of_end hle⟩⟩

/-- A line of one letter. -/
theorem request_buffer_iff_line :
    Safe ⟨List.replicate bufferSize 7, [7], List.length_replicate⟩ ([97, newline].take 2) :=
  (request_buffer_iff ⟨List.replicate bufferSize 7, [7], List.length_replicate⟩ [97, newline]
    (n := 2) (by decide)).1.mpr (.inl (by decide))

/-- As many letters as the buffer has room for: `strlen` looks on behind it. -/
theorem not_request_buffer :
    ¬ ∀ (m : Memory) (sent : List UInt8) (n : Nat), n ≤ bufferSize → Safe m (sent.take n) := by
  intro hall
  let m : Memory := ⟨List.replicate bufferSize 0, [], List.length_replicate⟩
  have hsafe := hall m (List.replicate bufferSize 97) bufferSize (Nat.le_refl _)
  rw [List.take_replicate, Nat.min_self] at hsafe
  rcases hsafe.stopped (Nat.le_of_eq List.length_replicate) with hlt | hnul
  · rw [List.length_replicate] at hlt
    exact Nat.lt_irrefl _ hlt
  · exact absurd (List.eq_of_mem_replicate hnul) (by decide)

end CAdvanced.FileServer
