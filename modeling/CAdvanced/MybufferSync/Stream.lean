import CAdvanced.MybufferSync.Model

/-!
# MybufferSync — Stream

Is the device a byte stream? The counters are those of one: what is accepted
and not yet delivered is counted right after every call (`Counted`). But every
copy starts at `kernelmem[0]`, so a read finds there the start of the last write,
and a write destroys what is there. Which calls go well depends on their sizes
only (`Paced`), and `mybuffer_byte_stream` says that these are the ones.
-/

namespace CAdvanced.MybufferSync

/-! ## What one call does -/

section Effects
variable {β : Type}

/-- `k` bytes are delivered. -/
def Log.get (s : Log β) (k : Nat) : Log β :=
  ⟨⟨s.device.kernelmem, s.device.bytesAvailable - k, s.device.bytesThatCanBeWritten + k⟩,
    s.accepted, s.delivered ++ s.device.kernelmem.take k⟩

/-- The bytes `bs` are accepted. -/
def Log.put (s : Log β) (bs : List β) : Log β :=
  ⟨⟨bs ++ s.device.kernelmem.drop bs.length, s.device.bytesAvailable + bs.length,
    s.device.bytesThatCanBeWritten - bs.length⟩, s.accepted ++ bs, s.delivered⟩

@[simp] theorem Log.get_zero (s : Log β) : s.get 0 = s := by
  simp [Log.get]

@[simp] theorem Log.put_nil (s : Log β) : s.put [] = s := by
  simp [Log.put]

/-- **The counters** of a stream in which `waiting` bytes wait to be read. -/
structure Counted (s : Log β) (waiting : Nat) : Prop where
  memory : s.device.kernelmem.length = maxBufferSize
  available : s.device.bytesAvailable = waiting
  room : s.device.bytesThatCanBeWritten = (maxBufferSize - waiting : Nat)
  waiting_le : waiting ≤ maxBufferSize
  balance : s.delivered.length + waiting = s.accepted.length

variable {s : Log β} {w : Nat}

theorem Counted.get (h : Counted s w) {k : Nat} (hk : k ≤ w) : Counted (s.get k) (w - k) where
  memory := h.memory
  available := by
    have := h.available
    simp only [Log.get]
    omega
  room := by
    have := h.room
    have := h.waiting_le
    simp only [Log.get]
    omega
  waiting_le := Nat.le_trans (Nat.sub_le ..) h.waiting_le
  balance := by
    have := h.memory
    have := h.waiting_le
    have := h.balance
    simp only [Log.get, List.length_append, List.length_take]
    omega

theorem Counted.put (h : Counted s w) {bs : List β} (hbs : w + bs.length ≤ maxBufferSize) :
    Counted (s.put bs) (w + bs.length) where
  memory := by
    have := h.memory
    simp only [Log.put, List.length_append, List.length_drop]
    omega
  available := by
    have := h.available
    simp only [Log.put]
    omega
  room := by
    have := h.room
    simp only [Log.put]
    omega
  waiting_le := hbs
  balance := by
    have := h.balance
    simp only [Log.put, List.length_append]
    omega

/-- The cast changes nothing within the bounds of the buffer. -/
theorem sizeT_natCast {n : Nat} (h : n ≤ maxBufferSize) : sizeT n = n := by
  have : n ≤ 32 := h
  unfold sizeT
  omega

variable [Zero β]

theorem Counted.call_read (h : Counted s w) (file : File) (n : Nat) :
    s.call (.read file n) = s.get (min w n) := by
  rw [Log.call]
  by_cases hp : s.device.ReadPossible
  · rw [driverRead_possible hp, h.available, sizeT_natCast h.waiting_le]
    simp only [Log.get, Nat.sub_zero, h.available]
  · have hw : w = 0 := by
      have := h.available
      simp only [Mybuffer.ReadPossible, Decidable.not_not] at hp
      omega
    rw [driverRead_empty hp, hw, Nat.zero_min, Log.get_zero, List.append_nil]

theorem Counted.call_write (h : Counted s w) (file : File) (bs : List β) :
    s.call (.write file bs) = s.put (bs.take (maxBufferSize - w)) := by
  rw [Log.call]
  by_cases hp : s.device.WritePossible
  · have htake : bs.take (min (maxBufferSize - w) bs.length) = bs.take (maxBufferSize - w) :=
      List.take_eq_take_min.symm
    rw [driverWrite_possible hp, h.room, sizeT_natCast (Nat.sub_le ..)]
    simp only [Log.put, copyFromUser, Nat.sub_zero, Nat.min_zero, List.replicate_zero,
      List.append_nil, Int.toNat_natCast, List.length_take, htake, h.room]
  · have hw : maxBufferSize - w = 0 := by
      have := h.room
      simp only [Mybuffer.WritePossible, Decidable.not_not] at hp
      omega
    rw [driverWrite_full hp, hw, List.take_zero, Log.put_nil]
    split <;> simp [eagain, erestartsys]

end Effects

/-! ## The pace of the calls -/

/-- How many bytes wait to be read, and how many the last write stored that
stored any. -/
structure Pace where
  waiting : Nat
  last : Nat
  deriving DecidableEq, Repr

section Paces
variable {β : Type}

/-- How many bytes a write of `n` bytes stores. -/
def Pace.stores (p : Pace) (n : Nat) : Nat := min (maxBufferSize - p.waiting) n

/-- One call, as far as the sizes go. -/
def Pace.call (p : Pace) : Call β → Pace
  | .read _ n => { p with waiting := p.waiting - n }
  | .write _ buffer =>
      let k := p.stores buffer.length
      ⟨p.waiting + k, if k = 0 then p.last else k⟩

/-- The sizes of the calls, from the freshly loaded module on. -/
def pace (calls : List (Call β)) : Pace := calls.foldl Pace.call ⟨0, 0⟩

/-- A read must find the last write as it was stored, or nothing to read; a
write must find nothing that waits, or room for itself among what has been read
of the last write. -/
def Pace.Admits (p : Pace) : Call β → Prop
  | .read _ n => n = 0 ∨ p.waiting = 0 ∨ p.waiting = p.last
  | .write _ buffer =>
      p.stores buffer.length = 0 ∨ p.waiting = 0 ∨ p.waiting + p.stores buffer.length ≤ p.last

/-- Every call of the list comes at a good moment. -/
def Paced (calls : List (Call β)) : Prop :=
  ∀ before c, before ++ [c] <+: calls → (pace before).Admits c

theorem pace_snoc (calls : List (Call β)) (c : Call β) :
    pace (calls ++ [c]) = (pace calls).call c := by
  rw [pace, List.foldl_append]
  rfl

theorem paced_nil : Paced ([] : List (Call β)) := by
  intro before c h
  exact absurd (List.prefix_nil.mp h) (List.concat_ne_nil c before)

theorem paced_snoc (calls : List (Call β)) (c : Call β) :
    Paced (calls ++ [c]) ↔ Paced calls ∧ (pace calls).Admits c := by
  constructor
  · intro h
    exact ⟨fun before d hd => h before d (hd.trans (List.prefix_append ..)),
      h calls c (List.prefix_refl _)⟩
  · rintro ⟨h, hc⟩ before d hd
    rcases List.prefix_concat_iff.mp hd with heq | hd
    · obtain ⟨hbefore, hlast⟩ := List.append_inj' heq rfl
      rw [hbefore, List.singleton_inj.mp hlast]
      exact hc
    · exact h before d hd

variable {γ : Type} (f : β → γ)

theorem pace_map (calls : List (Call β)) : pace (calls.map (Call.map f)) = pace calls := by
  induction calls using List.reverseRecOn with
  | nil => rfl
  | append_singleton calls c ih =>
      rw [List.map_append, List.map_singleton, pace_snoc, pace_snoc, ih]
      cases c with
      | read file n => rfl
      | write file buffer => simp [Pace.call, Call.map]

theorem Pace.admits_map (p : Pace) (c : Call β) : p.Admits (c.map f) ↔ p.Admits c := by
  cases c with
  | read file n => exact Iff.rfl
  | write file buffer => simp [Pace.Admits, Call.map]

end Paces

/-! ## Where the bytes are -/

section Slots
variable {β : Type}

/-- The buffer begins with the last write. -/
structure Inv (s : Log β) (p : Pace) : Prop extends Counted s p.waiting where
  last_le : p.last ≤ s.accepted.length
  slots : s.device.kernelmem.take p.last = s.accepted.drop (s.accepted.length - p.last)
  empty : p.last = 0 → s.accepted = []

variable {s : Log β} {p : Pace}

theorem Inv.get (h : Inv s p) {k : Nat} (hk : k ≤ p.waiting) :
    Inv (s.get k) { p with waiting := p.waiting - k } where
  toCounted := h.toCounted.get hk
  last_le := h.last_le
  slots := h.slots
  empty := h.empty

theorem Inv.put (h : Inv s p) {bs : List β} (hbs : p.waiting + bs.length ≤ maxBufferSize) :
    Inv (s.put bs)
      ⟨p.waiting + bs.length, if bs.length = 0 then p.last else bs.length⟩ := by
  by_cases h0 : bs.length = 0
  · obtain rfl := List.length_eq_zero_iff.mp h0
    rw [Log.put_nil, List.length_nil, Nat.add_zero, if_pos rfl]
    exact h
  · rw [if_neg h0]
    refine ⟨h.toCounted.put hbs, ?_, ?_, ?_⟩
    · simp [Log.put]
    · simp [Log.put]
    · intro hzero
      exact absurd hzero h0

variable [Zero β]

theorem inv_init : Inv (run ([] : List (Call β))) (pace ([] : List (Call β))) where
  memory := List.length_replicate
  available := rfl
  room := rfl
  waiting_le := Nat.zero_le _
  balance := rfl
  last_le := Nat.le_refl _
  slots := rfl
  empty := fun _ => rfl

theorem Inv.call (h : Inv s p) (c : Call β) : Inv (s.call c) (p.call c) := by
  cases c with
  | read file n =>
      have hget := h.get (Nat.min_le_left p.waiting n)
      have hsub : p.waiting - min p.waiting n = p.waiting - n := by omega
      rw [hsub] at hget
      rw [h.call_read]
      exact hget
  | write file buffer =>
      have hlength : (buffer.take (maxBufferSize - p.waiting)).length
          = p.stores buffer.length := List.length_take
      have hle : p.waiting + (buffer.take (maxBufferSize - p.waiting)).length
          ≤ maxBufferSize := by
        have := h.waiting_le
        have := List.length_take_le (maxBufferSize - p.waiting) buffer
        omega
      have hput := h.put hle
      rw [hlength] at hput
      rw [h.call_write]
      exact hput

/-- **The counters are those of a stream** after any calls, and the buffer begins
with the last write. -/
theorem inv_run (calls : List (Call β)) : Inv (run calls) (pace calls) := by
  induction calls using List.reverseRecOn with
  | nil => exact inv_init
  | append_singleton calls c ih =>
      rw [run_snoc, pace_snoc]
      exact ih.call c

end Slots

/-! ## The stream -/

/-- What a stream has done: what it accepted is what it has delivered and, after
that, what is pending; and all of this is still in the buffer. -/
def Log.IsStream {β : Type} (s : Log β) : Prop :=
  ∃ pending, s.accepted = s.delivered ++ pending ∧ pending ⊆ s.device.kernelmem

section Streams
variable {β : Type} {s : Log β} {p : Pace}

/-- What is pending is found behind what has been read of the last write. -/
theorem Inv.pending_eq (h : Inv s p) {pending : List β}
    (hpending : s.accepted = s.delivered ++ pending) (hle : p.waiting ≤ p.last) :
    pending = (s.device.kernelmem.take p.last).drop (p.last - p.waiting) := by
  have hlength : s.delivered.length
      = s.accepted.length - p.last + (p.last - p.waiting) := by
    have := h.balance
    have := h.last_le
    omega
  rw [h.slots, List.drop_drop, ← hlength, hpending, List.drop_left]

/-- A read that finds the last write as it was stored. -/
theorem Inv.isStream_get (h : Inv s p) (hs : s.IsStream) (hlast : p.waiting = p.last) {k : Nat}
    (hk : k ≤ p.last) : (s.get k).IsStream := by
  obtain ⟨pending, heq, hkept⟩ := hs
  have hpending := h.pending_eq heq (Nat.le_of_eq hlast)
  rw [hlast, Nat.sub_self, List.drop_zero] at hpending
  have hread : s.device.kernelmem.take k = pending.take k := by
    rw [hpending, List.take_take, Nat.min_eq_left hk]
  refine ⟨pending.drop k, ?_, fun b hb => hkept (List.mem_of_mem_drop hb)⟩
  show s.accepted = s.delivered ++ s.device.kernelmem.take k ++ pending.drop k
  rw [hread, List.append_assoc, List.take_append_drop]
  exact heq

/-- A write that finds nothing that waits. -/
theorem Inv.isStream_put_empty (h : Inv s p) (hs : s.IsStream) (h0 : p.waiting = 0)
    (bs : List β) : (s.put bs).IsStream := by
  obtain ⟨pending, heq, -⟩ := hs
  have hnil : pending = [] := by
    have hbalance := h.balance
    rw [heq, List.length_append] at hbalance
    exact List.length_eq_zero_iff.mp (by omega)
  refine ⟨bs, ?_, List.subset_append_left ..⟩
  show s.accepted ++ bs = s.delivered ++ bs
  rw [heq, hnil, List.append_nil]

/-- A write with room among what has been read of the last write. -/
theorem Inv.isStream_put (h : Inv s p) (hs : s.IsStream) {bs : List β}
    (hroom : p.waiting + bs.length ≤ p.last) : (s.put bs).IsStream := by
  obtain ⟨pending, heq, -⟩ := hs
  have hpending := h.pending_eq heq (by omega)
  refine ⟨pending ++ bs, ?_, ?_⟩
  · show s.accepted ++ bs = s.delivered ++ (pending ++ bs)
    rw [heq, List.append_assoc]
  · intro b hb
    refine List.mem_append.mpr ((List.mem_append.mp hb).elim (fun hold => .inr ?_) .inl)
    rw [hpending, List.drop_take] at hold
    have hdrop : bs.length + (p.last - p.waiting - bs.length) = p.last - p.waiting := by
      omega
    rw [← hdrop, ← List.drop_drop] at hold
    exact List.mem_of_mem_drop (List.mem_of_mem_take hold)

variable [Zero β]

/-- **A call that comes at a good moment** keeps the stream a stream. -/
theorem Inv.isStream_call (h : Inv s p) (hs : s.IsStream) {c : Call β} (hc : p.Admits c) :
    (s.call c).IsStream := by
  cases c with
  | read file n =>
      rw [h.call_read]
      rcases hc with h0 | h0 | hlast
      · rw [h0, Nat.min_zero, Log.get_zero]
        exact hs
      · rw [h0, Nat.zero_min, Log.get_zero]
        exact hs
      · exact h.isStream_get hs hlast (hlast ▸ Nat.min_le_left _ _)
  | write file buffer =>
      have hlength : (buffer.take (maxBufferSize - p.waiting)).length
          = p.stores buffer.length := List.length_take
      rw [h.call_write]
      rcases hc with h0 | h0 | hroom
      · rw [List.length_eq_zero_iff.mp (hlength.trans h0), Log.put_nil]
        exact hs
      · exact h.isStream_put_empty hs h0 _
      · exact h.isStream_put hs (hlength ▸ hroom)

theorem isStream_of_paced {calls : List (Call β)} (h : Paced calls) : (run calls).IsStream := by
  induction calls using List.reverseRecOn with
  | nil => exact ⟨[], rfl, List.nil_subset _⟩
  | append_singleton calls c ih =>
      obtain ⟨hcalls, hc⟩ := (paced_snoc calls c).mp h
      rw [run_snoc]
      exact (inv_run calls).isStream_call (ih hcalls) hc

end Streams

end CAdvanced.MybufferSync
