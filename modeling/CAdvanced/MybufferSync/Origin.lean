import CAdvanced.MybufferSync.Stream
import Mathlib.Data.List.Nodup
import Mathlib.Data.UInt

/-!
# MybufferSync — Origin

Two bytes of one value are two bytes: a byte is known by the call that wrote it
and its place there. Since the driver does not look at the bytes (`run_map`),
the calls can carry this along, and the stream can be asked for exactly the byte
that comes next. A byte lies in `kernelmem` at its place in its own write (`Tags`),
so what is overwritten is gone, and a call at a bad moment breaks the stream.
-/

namespace CAdvanced.MybufferSync

/-! ## Tags -/

/-- A byte and its origin: the number of the call that wrote it and its place in
the buffer of this call; `none` for the zeros of `kcalloc`. -/
structure Tagged where
  value : UInt8
  origin : Option (Nat × Nat)
  deriving DecidableEq, Repr

instance : Zero Tagged := ⟨⟨0, none⟩⟩

/-- Call number `i`, with its bytes tagged. -/
def Call.tag (i : Nat) : Call UInt8 → Call Tagged
  | .read file n => .read file n
  | .write file buffer => .write file (buffer.mapIdx fun j v => ⟨v, some (i, j)⟩)

/-- The calls, with all their bytes tagged. -/
def tag (calls : List (Call UInt8)) : List (Call Tagged) := calls.mapIdx Call.tag

theorem tag_snoc (calls : List (Call UInt8)) (c : Call UInt8) :
    tag (calls ++ [c]) = tag calls ++ [c.tag calls.length] :=
  List.mapIdx_concat

theorem Call.tag_value (i : Nat) (c : Call UInt8) : (c.tag i).map Tagged.value = c := by
  cases c with
  | read file n => rfl
  | write file buffer =>
      rw [Call.tag, Call.map]
      congr 1
      apply List.ext_getElem?
      intro j
      simp [Function.comp_def]

theorem tag_value (calls : List (Call UInt8)) :
    (tag calls).map (Call.map Tagged.value) = calls := by
  apply List.ext_getElem?
  intro i
  simp [tag, Function.comp_def, Call.tag_value]

/-- Without their tags, the bytes are those of the run itself. -/
theorem run_tag (calls : List (Call UInt8)) : (run (tag calls)).map Tagged.value = run calls := by
  rw [← run_map rfl, tag_value]

theorem pace_tag (calls : List (Call UInt8)) : pace (tag calls) = pace calls := by
  rw [← pace_map Tagged.value, tag_value]

theorem Pace.admits_tag (p : Pace) (i : Nat) (c : Call UInt8) :
    p.Admits (c.tag i) ↔ p.Admits c := by
  rw [← Pace.admits_map Tagged.value, Call.tag_value]

theorem paced_tag (calls : List (Call UInt8)) : Paced (tag calls) ↔ Paced calls := by
  induction calls using List.reverseRecOn with
  | nil => exact iff_of_true paced_nil paced_nil
  | append_singleton calls c ih =>
      rw [tag_snoc, paced_snoc, paced_snoc, ih, pace_tag, Pace.admits_tag]

/-! ## Where a byte can be -/

/-- The bytes of call `n`, from its first one on. -/
def Fresh (n : Nat) (bs : List Tagged) : Prop :=
  ∀ j (b : Tagged), bs[j]? = some b → b.origin = some (n, j)

/-- **Each byte in its place**, after `n` calls. -/
structure Tags (s : Log Tagged) (n : Nat) : Prop where
  slot : ∀ {k : Nat} {b : Tagged} {o : Nat × Nat},
    s.device.kernelmem[k]? = some b → b.origin = some o → o.1 < n ∧ o.2 = k
  written : ∀ {b : Tagged}, b ∈ s.accepted → ∃ o, b.origin = some o ∧ o.1 < n
  nodup : s.accepted.Nodup

variable {s : Log Tagged} {p : Pace} {n : Nat}

theorem Fresh.nodup {bs : List Tagged} (h : Fresh n bs) : bs.Nodup := by
  refine List.nodup_iff_getElem?_ne_getElem?.mpr ?_
  intro i j hij hj heq
  have hb := List.getElem?_eq_getElem hj
  have hi := h i _ (heq.trans hb)
  rw [h j _ hb] at hi
  simp only [Option.some.injEq, Prod.mk.injEq, true_and] at hi
  omega

theorem Tags.not_mem_fresh (h : Tags s n) {bs : List Tagged} (hbs : Fresh n bs) {b : Tagged}
    (hb : b ∈ s.accepted) : b ∉ bs := by
  intro hmem
  obtain ⟨o, ho, hlt⟩ := h.written hb
  obtain ⟨j, hj⟩ := List.getElem?_of_mem hmem
  rw [hbs j b hj] at ho
  cases ho
  exact Nat.lt_irrefl _ hlt

theorem Tags.get (h : Tags s n) (k : Nat) : Tags (s.get k) (n + 1) where
  slot hk ho := ⟨Nat.lt_succ_of_lt (h.slot hk ho).1, (h.slot hk ho).2⟩
  written hb := (h.written hb).imp fun _ ho => ⟨ho.1, Nat.lt_succ_of_lt ho.2⟩
  nodup := h.nodup

theorem Tags.put (h : Tags s n) {bs : List Tagged} (hbs : Fresh n bs) :
    Tags (s.put bs) (n + 1) where
  slot := by
    intro k b o hk ho
    simp only [Log.put] at hk
    by_cases hlt : k < bs.length
    · rw [List.getElem?_append_left hlt] at hk
      rw [hbs k b hk] at ho
      cases ho
      exact ⟨Nat.lt_succ_self n, rfl⟩
    · have hadd : bs.length + (k - bs.length) = k := by omega
      rw [List.getElem?_append_right (Nat.le_of_not_lt hlt), List.getElem?_drop, hadd] at hk
      exact ⟨Nat.lt_succ_of_lt (h.slot hk ho).1, (h.slot hk ho).2⟩
  written := by
    intro b hb
    rcases List.mem_append.mp hb with hold | hnew
    · obtain ⟨o, ho, hlt⟩ := h.written hold
      exact ⟨o, ho, Nat.lt_succ_of_lt hlt⟩
    · obtain ⟨j, hj⟩ := List.getElem?_of_mem hnew
      exact ⟨_, hbs j b hj, Nat.lt_succ_self n⟩
  nodup := by
    refine List.nodup_append.mpr ⟨h.nodup, hbs.nodup, ?_⟩
    rintro b hb _ hnew rfl
    exact h.not_mem_fresh hbs hb hnew

theorem fresh_take (n k : Nat) (buffer : List UInt8) :
    Fresh n ((buffer.mapIdx fun j v => (⟨v, some (n, j)⟩ : Tagged)).take k) := by
  intro j b hj
  rw [List.getElem?_take] at hj
  split at hj
  · rw [List.getElem?_mapIdx] at hj
    obtain ⟨v, -, rfl⟩ := Option.map_eq_some_iff.mp hj
    rfl
  · cases hj

theorem Tags.call (h : Tags s n) (hI : Inv s p) (c : Call UInt8) :
    Tags (s.call (c.tag n)) (n + 1) := by
  cases c with
  | read file k =>
      rw [Call.tag, hI.call_read]
      exact h.get _
  | write file buffer =>
      rw [Call.tag, hI.call_write]
      exact h.put (fresh_take n _ buffer)

theorem tags_run (calls : List (Call UInt8)) : Tags (run (tag calls)) calls.length := by
  induction calls using List.reverseRecOn with
  | nil =>
      refine ⟨?_, nofun, List.nodup_nil⟩
      intro k b o hk ho
      obtain rfl := List.eq_of_mem_replicate (List.mem_of_getElem? hk)
      cases ho
  | append_singleton calls c ih =>
      rw [tag_snoc, run_snoc, List.length_append]
      exact ih.call (inv_run _) c

/-! ## What a stream has been before -/

theorem isStream_of_get {β : Type} {s : Log β} {k : Nat} (h : (s.get k).IsStream) :
    s.IsStream := by
  obtain ⟨pending, heq, hkept⟩ := h
  refine ⟨s.device.kernelmem.take k ++ pending, ?_, ?_⟩
  · rw [← List.append_assoc]
    exact heq
  · exact List.append_subset.mpr ⟨List.take_subset _ _, hkept⟩

theorem Tags.isStream_of_put (h : Tags s n) (hI : Inv s p) {bs : List Tagged}
    (hbs : Fresh n bs) (hput : (s.put bs).IsStream) : s.IsStream := by
  obtain ⟨pending, heq, hkept⟩ := hput
  obtain ⟨old, hold⟩ : s.delivered <+: s.accepted := by
    have hlength := hI.balance
    exact List.prefix_of_prefix_length_le ⟨pending, heq.symm⟩ (List.prefix_append ..) (by omega)
  refine ⟨old, hold.symm, ?_⟩
  intro b hb
  have hpending : pending = old ++ bs := by
    have heq : s.accepted ++ bs = s.delivered ++ pending := heq
    rw [← hold, List.append_assoc] at heq
    exact (List.append_cancel_left heq).symm
  have hmem : b ∈ bs ++ s.device.kernelmem.drop bs.length :=
    hkept (hpending ▸ List.mem_append_left _ hb)
  refine List.mem_of_mem_drop ((List.mem_append.mp hmem).resolve_left ?_)
  exact h.not_mem_fresh hbs (hold ▸ List.mem_append_right _ hb)

theorem Tags.isStream_of_call (h : Tags s n) (hI : Inv s p) {c : Call UInt8}
    (hcall : (s.call (c.tag n)).IsStream) : s.IsStream := by
  cases c with
  | read file k =>
      rw [Call.tag, hI.call_read] at hcall
      exact isStream_of_get hcall
  | write file buffer =>
      rw [Call.tag, hI.call_write] at hcall
      exact h.isStream_of_put hI (fresh_take n _ buffer) hcall

/-! ## Bad moments -/

/-- The bytes of the last write, in the buffer and in the stream. -/
theorem Inv.slot_eq (hI : Inv s p) {j : Nat} (hj : j < p.last) :
    s.device.kernelmem[j]? = s.accepted[s.accepted.length - p.last + j]? := by
  rw [← List.getElem?_take_of_lt hj, hI.slots, List.getElem?_drop]

theorem Inv.last_pos (hI : Inv s p) (hw : p.waiting ≠ 0) : 0 < p.last := by
  rcases Nat.eq_zero_or_pos p.last with h0 | hpos
  · have hbalance := hI.balance
    rw [hI.empty h0, List.length_nil] at hbalance
    omega
  · exact hpos

/-- A read gets the first byte of the last write, so this is the next one. -/
theorem Tags.last_of_get (h : Tags s n) (hI : Inv s p) {k : Nat} (hk : k ≠ 0)
    (hw : p.waiting ≠ 0) (hget : (s.get k).IsStream) : p.waiting = p.last := by
  obtain ⟨pending, heq, -⟩ := hget
  have heq : s.accepted = s.delivered ++ s.device.kernelmem.take k ++ pending := heq
  have hlast := hI.last_pos hw
  have hbalance := hI.balance
  have hle := hI.last_le
  have hfirst : s.accepted[s.accepted.length - p.last + 0]? = s.accepted[s.delivered.length]? := by
    have hmem : 0 < (s.device.kernelmem.take k).length := by
      have := hI.memory
      have : 0 < maxBufferSize := by decide
      simp only [List.length_take]
      omega
    rw [← hI.slot_eq hlast]
    conv_rhs => rw [heq, List.append_assoc, List.getElem?_append_right (Nat.le_refl _),
      Nat.sub_self, List.getElem?_append_left hmem, List.getElem?_take_of_lt (by omega)]
  have := (List.getElem?_inj (by omega) h.nodup).mp hfirst
  omega

/-- A write destroys what was at its place, so nothing of this was pending. -/
theorem Tags.room_of_put (h : Tags s n) (hI : Inv s p) {bs : List Tagged} (hbs : Fresh n bs)
    (h0 : bs.length ≠ 0) (hw : p.waiting ≠ 0) (hput : (s.put bs).IsStream) :
    p.waiting + bs.length ≤ p.last := by
  obtain ⟨pending, heq, hkept⟩ := hput
  have heq : s.accepted ++ bs = s.delivered ++ pending := heq
  have hlast := hI.last_pos hw
  have hbalance := hI.balance
  have hle := hI.last_le
  -- the first byte of the last write that has not been read
  have hlt : s.accepted.length - p.last + (p.last - p.waiting) < s.accepted.length := by omega
  obtain ⟨b, hb⟩ : ∃ b, s.accepted[s.accepted.length - p.last + (p.last - p.waiting)]? = some b :=
    ⟨_, List.getElem?_eq_getElem hlt⟩
  have hslot : s.device.kernelmem[p.last - p.waiting]? = some b := by
    rw [hI.slot_eq (by omega), hb]
  have hmem : b ∈ s.accepted := List.mem_of_getElem? hb
  have hpending : b ∈ pending := by
    rw [← List.getElem?_append_left hlt, heq,
      List.getElem?_append_right (by omega)] at hb
    exact List.mem_of_getElem? hb
  have hdrop : b ∈ s.device.kernelmem.drop bs.length :=
    (List.mem_append.mp (hkept hpending)).resolve_left (h.not_mem_fresh hbs hmem)
  -- it has one place only
  obtain ⟨o, ho, -⟩ := h.written hmem
  obtain ⟨t, ht⟩ := List.getElem?_of_mem hdrop
  rw [List.getElem?_drop] at ht
  have hplace := (h.slot ht ho).2
  rw [(h.slot hslot ho).2] at hplace
  omega

/-- **A call at a bad moment** breaks the stream. -/
theorem Tags.admits_of_call (h : Tags s n) (hI : Inv s p) {c : Call UInt8}
    (hcall : (s.call (c.tag n)).IsStream) : p.Admits (c.tag n) := by
  cases c with
  | read file k =>
      rw [Call.tag, hI.call_read] at hcall
      by_cases hk : k = 0
      · exact .inl hk
      · by_cases hw : p.waiting = 0
        · exact .inr (.inl hw)
        · exact .inr (.inr (h.last_of_get hI (by omega) hw hcall))
  | write file buffer =>
      rw [Call.tag, hI.call_write] at hcall
      have hlength := List.length_take (i := maxBufferSize - p.waiting)
        (l := buffer.mapIdx fun j v => (⟨v, some (n, j)⟩ : Tagged))
      by_cases h0 : p.stores (buffer.mapIdx fun j v => (⟨v, some (n, j)⟩ : Tagged)).length = 0
      · exact .inl h0
      · by_cases hw : p.waiting = 0
        · exact .inr (.inl hw)
        · refine .inr (.inr ?_)
          rw [Pace.stores, ← hlength]
          exact h.room_of_put hI (fresh_take n _ buffer) (hlength ▸ h0) hw hcall

/-! ## The byte stream -/

/-- **The byte stream**: the reads deliver what the writes have accepted, and
`bytes_available` counts the rest; byte for byte, no accepted byte is delivered
twice or out of order, or overwritten before it is delivered. -/
structure IsByteStream (calls : List (Call UInt8)) : Prop where
  delivered : (run calls).delivered <+: (run calls).accepted
  available : (run calls).device.bytesAvailable
    = (run calls).accepted.length - (run calls).delivered.length
  bytes : (run (tag calls)).IsStream

theorem isByteStream_iff (calls : List (Call UInt8)) :
    IsByteStream calls ↔ (run (tag calls)).IsStream := by
  refine ⟨fun h => h.bytes, fun h => ⟨?_, ?_, h⟩⟩
  · obtain ⟨pending, heq, -⟩ := h
    rw [← run_tag calls]
    exact List.IsPrefix.map _ ⟨pending, heq.symm⟩
  · have hI := inv_run calls
    have hbalance := hI.balance
    rw [hI.available]
    omega

/-- **When the device is a byte stream**: when every read finds the last write as it
was stored, or nothing to read, and every write finds nothing that waits, or room
for itself among what has been read of the last write. -/
theorem mybuffer_byte_stream (calls : List (Call UInt8)) : IsByteStream calls ↔ Paced calls := by
  rw [isByteStream_iff, ← paced_tag]
  refine ⟨?_, isStream_of_paced⟩
  intro h
  induction calls using List.reverseRecOn with
  | nil => exact paced_nil
  | append_singleton calls c ih =>
      have htags := tags_run calls
      have hI := inv_run (tag calls)
      rw [tag_snoc, run_snoc] at h
      rw [tag_snoc, paced_snoc]
      exact ⟨ih (htags.isStream_of_call hI h), htags.admits_of_call hI h⟩

/-- Two writes and a read: what is read is the second write, and two zeros. -/
theorem mybuffer_byte_stream_overwritten :
    ¬ IsByteStream [.write ⟨false, 0⟩ [97, 98], .write ⟨false, 0⟩ [99, 100],
      .read ⟨false, 0⟩ 4] := by
  intro h
  have hread := h.delivered
  revert hread
  decide

end CAdvanced.MybufferSync
