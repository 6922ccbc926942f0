import CAdvanced.Mybuffer.Reads

/-!
# Mybuffer — Chunks

A message that is read in several parts. `*offset` takes part in the length of a read and is
moved on by it, but the copy starts at `buffer->buffer` each time. So the parts have the
right lengths, and together as many bytes as the message, but each of them is a beginning of
the message.
-/

namespace CAdvanced.Mybuffer

open CInt

variable {β : Type}

/-- The bytes that successive reads of one instance deliver until one of them returns 0: the
`k`-th asks for `counts k` bytes, the first one stands at `*offset`. -/
def readUntilZero (b : Buffer β) (counts : Nat → Nat) (e : Nat → Env β) :
    (fuel k : Nat) → (offset : Int) → Option (List β)
  | 0, _, _ => none
  | fuel + 1, k, offset =>
      (driverRead b offset (counts k) (e k)).bind fun r =>
        if r.ret < 0 then none
        else if r.ret = 0 then some []
        else (readUntilZero b counts e fuel (k + 1) r.offset).map fun rest => r.delivered ++ rest

/-- Where the `k`-th read starts, as long as there is something left. -/
def startOf (counts : Nat → Nat) : Nat → Nat
  | 0 => 0
  | k + 1 => startOf counts k + counts k

/-- From the `k`-th read on, the bytes at the places of each part are the first ones of the
message. -/
def RepeatsFrom (k : Nat) (message : List β) (counts : Nat → Nat) : Prop :=
  ∀ j, k ≤ j → ∀ i, i < counts j → startOf counts j + i < message.length →
    message[startOf counts j + i]? = message[i]?

theorem startOf_mono (counts : Nat → Nat) {j k : Nat} (h : j ≤ k) :
    startOf counts j ≤ startOf counts k := by
  induction h with
  | refl => exact Nat.le_refl _
  | step _ ih => exact Nat.le_trans ih (Nat.le_add_right _ _)

/-- Nothing is left to read. -/
theorem repeatsFrom_end {k : Nat} {message : List β} {counts : Nat → Nat}
    (h : message.length ≤ startOf counts k) : RepeatsFrom k message counts := by
  intro j hj i _ hlt
  have hstart := startOf_mono counts hj
  omega

/-- The part of the `k`-th read, and those of the later ones. -/
theorem repeatsFrom_succ {k : Nat} {message : List β} {counts : Nat → Nat} :
    RepeatsFrom k message counts
      ↔ (∀ i, i < counts k → startOf counts k + i < message.length →
          message[startOf counts k + i]? = message[i]?)
        ∧ RepeatsFrom (k + 1) message counts := by
  constructor
  · intro h
    exact ⟨h k (Nat.le_refl k), fun j hj => h j (Nat.le_of_succ_le hj)⟩
  · rintro ⟨hfirst, hrest⟩ j hj
    rcases Nat.eq_or_lt_of_le hj with rfl | hlt
    · exact hfirst
    · exact hrest j hlt

/-- The first `n` bytes of a list are those that follow its first `o` ones. -/
theorem take_eq_take_drop_iff {message : List β} {o n : Nat} (h : o + n ≤ message.length) :
    message.take n = (message.drop o).take n
      ↔ ∀ i, i < n → message[o + i]? = message[i]? := by
  rw [List.ext_getElem?_iff]
  constructor
  · intro heq i hi
    have hget := heq i
    rw [List.getElem?_take_of_lt hi, List.getElem?_take_of_lt hi, List.getElem?_drop] at hget
    exact hget.symm
  · intro heq i
    by_cases hi : i < n
    · rw [List.getElem?_take_of_lt hi, List.getElem?_take_of_lt hi, List.getElem?_drop]
      exact (heq i hi).symm
    · rw [List.getElem?_eq_none, List.getElem?_eq_none] <;>
        simp only [List.length_take, List.length_drop] <;> omega

/-- What a part and the later ones are to be. -/
theorem append_eq_drop_iff {message part rest : List β} {o n : Nat} (hpart : part.length = n)
    (h : o + n ≤ message.length) :
    part ++ rest = message.drop o
      ↔ part = (message.drop o).take n ∧ rest = message.drop (o + n) := by
  have hsplit := (List.take_append_drop n (message.drop o)).symm
  rw [List.drop_drop] at hsplit
  constructor
  · intro heq
    refine List.append_inj (heq.trans hsplit) ?_
    rw [hpart, List.length_take, List.length_drop]
    omega
  · rintro ⟨hfirst, hlater⟩
    rw [hsplit, hfirst, hlater]

/-! ## One read -/

section Reads
variable {b : Buffer β} {message : List β} {counts : Nat → Nat} {e : Nat → Env β}

/-- The buffer holds `message`. -/
structure Buffer.Holds (b : Buffer β) (message : List β) : Prop where
  pos : 0 < message.length
  fits : message.length ≤ maxBufferSize
  length : b.length = message.length
  content : message <+: b.buffer

/-- What a write of the message leaves. -/
theorem driverWrite_holds [Zero β] (b : Buffer β) (hpos : 0 < message.length)
    (hfits : message.length ≤ maxBufferSize) : (driverWrite b message 0).Holds message := by
  have htake : message.take maxBufferSize = message := List.take_of_length_le hfits
  refine ⟨hpos, hfits, ?_, ?_⟩
  · simp only [driverWrite, copyFromUser, Nat.min_zero, Nat.sub_zero]
    exact Nat.min_eq_left hfits
  · simp only [driverWrite, copyFromUser_message, htake]
    exact List.prefix_append _ _

/-- **One read** at `o`: it returns what is left or what is asked for, with the first bytes
of the message. -/
theorem Buffer.Holds.driverRead (hb : b.Holds message) {o count : Nat} {e : Env β}
    (ho : o ≤ message.length) (hrefused : e.refused = 0) :
    Mybuffer.driverRead b o count e
      = some ⟨(min (message.length - o) count : Nat),
          message.take (min (message.length - o) count),
          (o + min (message.length - o) count : Nat)⟩ := by
  have hfits := hb.fits
  unfold maxBufferSize at hfits
  have hfilled : b.Filled := by
    rw [Buffer.Filled, hb.length]
    exact Nat.ne_of_gt hb.pos
  have hcopy : toCopy b.length o count
      = signed 32 (min (message.length - o) count : Nat) := by
    rw [hb.length]
    exact toCopy_of_le (Int.natCast_nonneg o) (Int.ofNat_le.mpr ho) hb.fits
  have hn : min (message.length - o) count ≤ maxRwCount := by
    unfold maxRwCount
    omega
  have hoffset : signed 64 ((o : Int) + (min (message.length - o) count : Nat))
      = (o + min (message.length - o) count : Nat) := by
    rw [Int.natCast_add]
    apply signed_of_fits <;> omega
  obtain ⟨rest, hrest⟩ := hb.content
  have hmemory : (List.range (min (message.length - o) count)).map (b.memory e.beyond)
      = message.take (min (message.length - o) count) := by
    have hle : min (message.length - o) count ≤ message.length := by omega
    rw [memory_take b e.beyond, ← hrest, List.take_append_of_le_length hle]
    rw [← hrest, List.length_append]
    omega
  rw [driverRead_filled hfilled hn hcopy, hrefused, Nat.min_zero, Nat.sub_zero,
    if_neg (not_not.mpr rfl), hoffset, hmemory]

/-! ## All reads -/

/-- **The reads from the `k`-th on**: they end, they deliver as many bytes as are left, and
these are the right ones just when the parts repeat the beginning of the message. -/
theorem readUntilZero_spec (hb : b.Holds message) (hpos : ∀ k, 0 < counts k)
    (hrefused : ∀ k, (e k).refused = 0) {fuel k o : Nat}
    (ho : o = min (startOf counts k) message.length) (hfuel : message.length - o < fuel) :
    ∃ bytes, readUntilZero b counts e fuel k o = some bytes
      ∧ bytes.length = message.length - o
      ∧ (bytes = message.drop o ↔ RepeatsFrom k message counts) := by
  induction fuel generalizing k o with
  | zero => exact absurd hfuel (Nat.not_lt_zero _)
  | succ fuel ih =>
      have hle : o ≤ message.length := by omega
      have hcount := hpos k
      rw [readUntilZero, hb.driverRead hle (hrefused k), Option.bind_some]
      dsimp only
      rw [if_neg (Int.not_lt.mpr (Int.natCast_nonneg _))]
      by_cases hend : message.length ≤ startOf counts k
      · -- everything has been read
        have hzero : min (message.length - o) (counts k) = 0 := by omega
        rw [if_pos (Int.natCast_eq_zero.mpr hzero)]
        refine ⟨[], rfl, ?_, fun _ => repeatsFrom_end hend, fun _ => ?_⟩
        · rw [List.length_nil]
          omega
        · rw [List.drop_eq_nil_of_le (by omega)]
      · have hstart : o = startOf counts k := by omega
        have hn : min (message.length - o) (counts k) ≠ 0 := by omega
        rw [if_neg (mt Int.natCast_eq_zero.mp hn)]
        obtain ⟨rest, hrest, hlen, hiff⟩ := ih (k := k + 1)
          (o := o + min (message.length - o) (counts k))
          (by rw [startOf]; omega) (by omega)
        rw [hrest, Option.map_some]
        refine ⟨_, rfl, ?_, ?_⟩
        · rw [List.length_append, List.length_take, hlen]
          omega
        · have hlength : (message.take (min (message.length - o) (counts k))).length
              = min (message.length - o) (counts k) := by
            rw [List.length_take]
            omega
          rw [repeatsFrom_succ, ← hiff, append_eq_drop_iff hlength (by omega),
            take_eq_take_drop_iff (by omega), ← hstart]
          refine and_congr_left fun _ => ?_
          exact ⟨fun h i hi hlt => h i (by omega), fun h i hi => h i (by omega) (by omega)⟩

/-- **A message that is read in parts.** After a write of it, a freshly opened instance gets
as many bytes as it has, whatever it asks for at a time; they are the message just when each
part begins as the message does. -/
theorem chunked_reads_iff [Zero β] (b : Buffer β) (hmessage : 0 < message.length)
    (hfits : message.length ≤ maxBufferSize) (hpos : ∀ k, 0 < counts k)
    (hrefused : ∀ k, (e k).refused = 0) {fuel : Nat} (hfuel : message.length < fuel) :
    ∃ bytes, readUntilZero (driverWrite b message 0) counts e fuel 0 0 = some bytes
      ∧ bytes.length = message.length
      ∧ (bytes = message ↔ RepeatsFrom 0 message counts) :=
  readUntilZero_spec (driverWrite_holds b hmessage hfits) hpos hrefused (o := 0)
    (Nat.zero_min _).symm hfuel

end Reads

/-- The whole message in one part, and the last read. -/
theorem chunked_reads_iff_one :
    readUntilZero (driverWrite (⟨List.replicate maxBufferSize 0, 0⟩ : Buffer Nat) [1, 2, 3, 4] 0)
      (fun _ => 512) (fun _ => ⟨false, 0, fun _ => 0⟩) 5 0 0 = some [1, 2, 3, 4] := by
  let e : Nat → Env Nat := fun _ => ⟨false, 0, fun _ => 0⟩
  obtain ⟨bytes, hread, -, hiff⟩ : ∃ bytes,
      readUntilZero (driverWrite ⟨List.replicate maxBufferSize 0, 0⟩ [1, 2, 3, 4] 0)
        (fun _ => 512) e 5 0 0 = some bytes
      ∧ bytes.length = 4 ∧ (bytes = [1, 2, 3, 4] ↔ RepeatsFrom 0 [1, 2, 3, 4] fun _ => 512) :=
    chunked_reads_iff _ (by decide) (by decide) (fun _ => by decide) (fun _ => rfl) (by decide)
  rw [hread]
  refine congrArg some (hiff.mpr ?_)
  refine repeatsFrom_succ.mpr ⟨fun i _ _ => ?_, repeatsFrom_end (by decide)⟩
  rw [startOf, Nat.zero_add]

/-- Four bytes, read two at a time. -/
theorem not_chunked_reads :
    ¬ ∀ (message : List Nat) (counts : Nat → Nat) (fuel : Nat), 0 < message.length →
      message.length ≤ maxBufferSize → (∀ k, 0 < counts k) → message.length < fuel →
      readUntilZero (driverWrite (⟨List.replicate maxBufferSize 0, 0⟩ : Buffer Nat) message 0)
        counts (fun _ => ⟨false, 0, fun _ => 0⟩) fuel 0 0 = some message := by
  intro hall
  have hread := hall [1, 2, 3, 4] (fun _ => 2) 5 (by decide) (by decide) (fun _ => by decide)
    (by decide)
  exact absurd hread (by decide +kernel)

end CAdvanced.Mybuffer
