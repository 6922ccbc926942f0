import CAdvanced.Mybuffer.Model

/-!
# Mybuffer — Reads

What a read may copy is `buffer->length - *offset`, an unsigned difference. Offsets only
grow, but a write sets the length anew, so an instance may come to stand behind the end of
what is stored; the difference is then huge, and the read copies as much as it was asked
for. As long as no such read has been made, all offsets are inside the buffer (`Inv`).
-/

namespace CAdvanced.Mybuffer

open Interleave System CInt

variable {β ι : Type}

/-- The read stays inside what is stored, and copies nothing from behind the buffer. -/
def Read.Inside (r : Read β) : Prop :=
  (0 < r.ret → r.offset + r.ret ≤ r.length) ∧ r.delivered.length ≤ maxBufferSize

instance (r : Read β) : Decidable r.Inside := inferInstanceAs (Decidable (_ ∧ _))

/-- The read is made behind the end of what is stored, for some bytes, and the memory of the
user takes them, or takes more than the buffer has. -/
def PastEnd (b : Buffer β) (offset : Int) (count refused : Nat) : Prop :=
  b.Filled ∧ b.length < offset ∧ 0 < count ∧ (refused = 0 ∨ maxBufferSize < count - refused)

instance (b : Buffer β) (offset : Int) (count refused : Nat) :
    Decidable (PastEnd b offset count refused) := inferInstanceAs (Decidable (_ ∧ _))

/-- The steps that are such reads. -/
def pastEnd (l : Call β ι) (d : Device β ι) : Bool :=
  match l with
  | .read i count e => PastEnd d.buffer (d.offset i) count e.refused
  | .write .. => false

/-- Length and offsets are inside the buffer. -/
structure Inv (d : Device β ι) : Prop where
  length : d.buffer.length ≤ maxBufferSize
  offset_nonneg : ∀ i, 0 ≤ d.offset i
  offset_le : ∀ i, d.offset i ≤ maxBufferSize

/-! ## How much a read copies -/

section ToCopy
variable {length count : Nat} {offset : Int}

/-- What fits an `int` and an unsigned long stays as it is. -/
theorem signed_natCast {n : Nat} (h : n ≤ maxRwCount) :
    signed 32 n = n ∧ unsigned 64 (signed 32 n) = n := by
  unfold maxRwCount at h
  have hsigned : signed 32 n = n := by
    apply signed_of_fits <;> omega
  refine ⟨hsigned, Int.ofNat.inj ?_⟩
  rw [hsigned]
  apply unsigned_of_fits <;> omega

/-- Up to the end of what is stored, if that is where the offset is. -/
theorem toCopy_of_le (hlow : 0 ≤ offset) (hle : offset ≤ length) (hmax : length ≤ maxBufferSize) :
    toCopy length offset count = signed 32 (min (length - offset.toNat) count : Nat) := by
  unfold maxBufferSize at hmax
  have hdiff : (unsigned 64 (length - offset) : Int) = length - offset := by
    apply unsigned_of_fits <;> omega
  unfold toCopy
  congr 1
  omega

/-- Everything, if the offset is behind the end. -/
theorem toCopy_of_lt (hlt : length < offset) (hoffset : offset ≤ maxBufferSize)
    (hcount : count ≤ maxRwCount) : toCopy length offset count = signed 32 (count : Nat) := by
  unfold maxBufferSize at hoffset
  unfold maxRwCount at hcount
  have hdiff : (unsigned 64 (length - offset) : Int) = 2 ^ 64 + (length - offset) := by
    apply unsigned_of_neg <;> omega
  unfold toCopy
  congr 1
  omega

/-- A read that copies `n` bytes, when the user takes them and when not. -/
theorem driverRead_filled {b : Buffer β} {e : Env β} {n : Nat} (hfilled : b.Filled)
    (hn : n ≤ maxRwCount) (hcopy : toCopy b.length offset count = signed 32 (n : Nat)) :
    driverRead b offset count e
      = some (if min n e.refused ≠ 0 then
          ⟨-efault, (List.range (n - e.refused)).map (b.memory e.beyond), offset⟩
        else ⟨n, (List.range (n - e.refused)).map (b.memory e.beyond),
          signed 64 (offset + n)⟩) := by
  obtain ⟨hint, hlong⟩ := signed_natCast hn
  unfold driverRead copyToUser
  rw [if_pos hfilled, hcopy]
  dsimp only
  rw [hlong, hint]
  split <;> rfl

end ToCopy

/-! ## The copies -/

/-- What is copied to the user from inside the buffer. -/
theorem memory_take (b : Buffer β) (beyond : Nat → β) {n : Nat} (h : n ≤ b.buffer.length) :
    (List.range n).map (b.memory beyond) = b.buffer.take n := by
  refine List.ext_getElem ?_ fun k hk hk' => ?_
  · rw [List.length_map, List.length_range, List.length_take, Nat.min_eq_left h]
  · have hlt : k < b.buffer.length := by
      rw [List.length_take] at hk'
      omega
    rw [List.getElem_map, List.getElem_range, List.getElem_take, Buffer.memory,
      List.getElem?_eq_getElem hlt]
    rfl

/-- What a write copies to the buffer is its message. -/
theorem copyFromUser_message [Zero β] (buffer user : List β) :
    (copyFromUser buffer user (min user.length maxBufferSize) 0).1
      = user.take maxBufferSize ++ buffer.drop (user.take maxBufferSize).length := by
  have htake : user.take (min user.length maxBufferSize) = user.take maxBufferSize := by
    rw [List.take_eq_take_iff]
    omega
  simp only [copyFromUser, Nat.min_zero, List.replicate_zero, List.append_nil, Nat.sub_zero,
    htake, List.length_take, Nat.min_comm maxBufferSize]

/-- What is known of a read that has replied `r`. -/
structure ReadSpec (b : Buffer β) (offset : Int) (count : Nat) (e : Env β) (r : Reply β) :
    Prop where
  inside : ¬ PastEnd b offset count e.refused
    ↔ Read.Inside ⟨offset, b.length, r.ret, r.delivered⟩
  offset : ¬ PastEnd b offset count e.refused → 0 ≤ r.offset ∧ r.offset ≤ maxBufferSize

section Spec
variable {b : Buffer β} {offset : Int} {count : Nat} {e : Env β} {r : Reply β}

/-- Nobody reads from an empty buffer. -/
theorem readSpec_empty (hlow : 0 ≤ offset) (hhigh : offset ≤ maxBufferSize)
    (hempty : ¬ b.Filled) (h : driverRead b offset count e = some r) :
    ReadSpec b offset count e r := by
  have hnot : ¬ PastEnd b offset count e.refused := fun hpast => hempty hpast.1
  unfold driverRead at h
  rw [if_neg hempty] at h
  split at h
  · cases h
    exact ⟨⟨fun _ => ⟨nofun, by simp⟩, fun _ => hnot⟩, fun _ => ⟨hlow, hhigh⟩⟩
  · cases h

/-- A read in front of the end copies at most what is left up to there. -/
theorem readSpec_of_le (hlength : b.length ≤ maxBufferSize) (hlow : 0 ≤ offset)
    (hle : offset ≤ b.length) (hcount : count ≤ maxRwCount) (hfilled : b.Filled)
    (h : driverRead b offset count e = some r) : ReadSpec b offset count e r := by
  have hnot : ¬ PastEnd b offset count e.refused := fun hpast => by
    have hlt := hpast.2.1
    omega
  have hn : min (b.length - offset.toNat) count ≤ maxRwCount := by omega
  rw [driverRead_filled hfilled hn (toCopy_of_le hlow hle hlength)] at h
  split at h
  · cases h
    have hhigh : offset ≤ maxBufferSize := by omega
    refine ⟨⟨fun _ => ⟨nofun, ?_⟩, fun _ => hnot⟩, fun _ => ⟨hlow, hhigh⟩⟩
    simp only [List.length_map, List.length_range]
    omega
  · cases h
    have hend : offset + (min (b.length - offset.toNat) count : Nat) ≤ b.length := by omega
    have hsame : signed 64 (offset + (min (b.length - offset.toNat) count : Nat))
        = offset + (min (b.length - offset.toNat) count : Nat) := by
      unfold maxBufferSize at hlength
      apply signed_of_fits <;> omega
    refine ⟨⟨fun _ => ⟨fun _ => hend, ?_⟩, fun _ => hnot⟩, fun _ => ?_⟩
    · simp only [List.length_map, List.length_range]
      omega
    · rw [hsame]
      dsimp only
      omega

/-- A read behind the end copies all that was asked for. -/
theorem readSpec_of_lt (hlow : 0 ≤ offset) (hhigh : offset ≤ maxBufferSize)
    (hlt : b.length < offset) (hcount : count ≤ maxRwCount) (hfilled : b.Filled)
    (h : driverRead b offset count e = some r) : ReadSpec b offset count e r := by
  have hpast : PastEnd b offset count e.refused
      ↔ 0 < count ∧ (e.refused = 0 ∨ maxBufferSize < count - e.refused) :=
    ⟨fun hpast => hpast.2.2, fun hrest => ⟨hfilled, hlt, hrest⟩⟩
  rw [driverRead_filled hfilled hcount (toCopy_of_lt hlt hhigh hcount)] at h
  split at h
  · -- the user refuses something
    cases h
    have hinside : Read.Inside ⟨offset, b.length, -efault,
          (List.range (count - e.refused)).map (b.memory e.beyond)⟩
        ↔ count - e.refused ≤ maxBufferSize := by
      unfold Read.Inside
      simp only [List.length_map, List.length_range]
      exact ⟨And.right, fun hle => ⟨nofun, hle⟩⟩
    refine ⟨?_, fun _ => ⟨hlow, hhigh⟩⟩
    rw [hpast, hinside]
    omega
  · cases h
    have hinside : Read.Inside ⟨offset, b.length, (count : Int),
          (List.range (count - e.refused)).map (b.memory e.beyond)⟩ ↔ count = 0 := by
      unfold Read.Inside
      simp only [List.length_map, List.length_range]
      omega
    refine ⟨?_, fun hnot => ?_⟩
    · rw [hpast, hinside]
      omega
    · rw [hpast] at hnot
      have hzero : count = 0 := by omega
      subst hzero
      unfold maxBufferSize at hhigh ⊢
      have hsame : signed 64 (offset + (0 : Nat)) = offset + (0 : Nat) := by
        apply signed_of_fits <;> omega
      rw [hsame]
      dsimp only
      omega

/-- **One read**: it stays inside just when it is not past the end, and then leaves the
offset inside the buffer. -/
theorem driverRead_spec (hlength : b.length ≤ maxBufferSize) (hlow : 0 ≤ offset)
    (hhigh : offset ≤ maxBufferSize) (hcount : count ≤ maxRwCount)
    (h : driverRead b offset count e = some r) : ReadSpec b offset count e r := by
  by_cases hfilled : b.Filled
  · by_cases hle : offset ≤ b.length
    · exact readSpec_of_le hlength hlow hle hcount hfilled h
    · exact readSpec_of_lt hlow hhigh (by omega) hcount hfilled h
  · exact readSpec_empty hlow hhigh hfilled h

end Spec

/-! ## Over a run -/

variable [Zero β]

theorem driverWrite_length (b : Buffer β) (user : List β) (refused : Nat) :
    (driverWrite b user refused).length ≤ maxBufferSize :=
  Nat.le_trans (Nat.sub_le _ _) (Nat.min_le_right _ _)

theorem inv_start : Inv (start : Device β ι) :=
  ⟨Nat.zero_le _, fun _ => Int.le_refl _, fun _ => Int.natCast_nonneg _⟩

variable [DecidableEq ι]

/-- **The length** is at most that of the buffer, whatever is read. -/
theorem length_inductive :
    (mybuffer β ι).Inductive fun d => d.buffer.length ≤ maxBufferSize where
  init := Nat.zero_le _
  step := by
    intro l d d' hd h
    cases l with
    | read i count e =>
        obtain ⟨r, -, rfl⟩ := Option.map_eq_some_iff.mp h
        exact hd
    | write i user refused =>
        cases h
        exact driverWrite_length _ _ _

/-- One call: a read shows something bad just when it is past the end, and all other calls
keep the offsets inside the buffer. -/
theorem inv_step {l : Call β ι} {d d' : Device β ι} (hI : Inv d)
    (h : (mybuffer β ι).next l d = some d') :
    (pastEnd l d = false ↔ ∀ r, reads l d = some r → r.Inside)
      ∧ (pastEnd l d = false → Inv d') := by
  cases l with
  | read i count e =>
      obtain ⟨r, hread, rfl⟩ := Option.map_eq_some_iff.mp h
      have hspec := driverRead_spec hI.length (hI.offset_nonneg i) (hI.offset_le i) count.2 hread
      simp only [pastEnd, reads, hread, decide_eq_false_iff_not, Option.map_some,
        Option.some.injEq, forall_eq']
      refine ⟨hspec.inside, fun hnot => ?_⟩
      obtain ⟨hlow, hhigh⟩ := hspec.offset hnot
      refine ⟨hI.length, fun j => ?_, fun j => ?_⟩
      · by_cases hj : j = i
        · subst hj
          simpa using hlow
        · simpa [hj] using hI.offset_nonneg j
      · by_cases hj : j = i
        · subst hj
          simpa using hhigh
        · simpa [hj] using hI.offset_le j
  | write i user refused =>
      cases h
      exact ⟨⟨fun _ => nofun, fun _ => rfl⟩,
        fun _ => ⟨driverWrite_length _ _ _, hI.offset_nonneg, hI.offset_le⟩⟩

/-- The reads of a run. -/
def readsOf (ls : List (Call β ι)) : List (Read β) := (mybuffer β ι).trace reads ls start

/-- **Reads stay inside the stored data** in a run just when none is made past the end; the
length is never more than the buffer has. -/
theorem reads_inside_iff {ls : List (Call β ι)} {d : Device β ι}
    (h : (mybuffer β ι).Reaches ls d) :
    d.buffer.length ≤ maxBufferSize
      ∧ ((∀ r ∈ readsOf ls, r.Inside) ↔ (mybuffer β ι).count pastEnd ls = 0) :=
  ⟨length_inductive.exec (Nat.zero_le _) h,
    (tally_eq_zero_iff_of_good (S := mybuffer β ι) inv_step inv_start h).symm⟩

/-- Two instances read the ten bytes that are stored, one of them in two parts. -/
theorem reads_inside_iff_two :
    ∃ ls : List (Call Nat (Fin 3)), (readsOf ls).map Read.ret = [4, 10, 6, 0]
      ∧ ∀ r ∈ readsOf ls, r.Inside := by
  let e : Env Nat := ⟨false, 0, fun _ => 1⟩
  let ls : List (Call Nat (Fin 3)) :=
    [.write 2 ⟨List.range 10, by decide⟩ 0, .read 0 ⟨4, by decide⟩ e,
      .read 1 ⟨100, by decide⟩ e, .read 0 ⟨100, by decide⟩ e, .read 0 ⟨100, by decide⟩ e]
  obtain ⟨d, hrun⟩ := Option.isSome_iff_exists.mp
    (show ((mybuffer Nat (Fin 3)).exec ls start).isSome by decide +kernel)
  exact ⟨ls, by decide +kernel, (reads_inside_iff hrun).2.mpr (by decide +kernel)⟩

/-- Ten bytes are read, five bytes are written, and the next read of the same instance gets
everything that it asks for, the memory behind the buffer as well. -/
theorem not_reads_inside :
    ¬ ∀ (ls : List (Call Nat (Fin 2))) (d : Device Nat (Fin 2)),
      (mybuffer Nat (Fin 2)).Reaches ls d → ∀ r ∈ readsOf ls, r.Inside := by
  intro hall
  let e : Env Nat := ⟨false, 0, fun _ => 1⟩
  let ls : List (Call Nat (Fin 2)) :=
    [.write 1 ⟨List.range 10, by decide⟩ 0, .read 0 ⟨10, by decide⟩ e,
      .write 1 ⟨List.range 5, by decide⟩ 0, .read 0 ⟨600, by decide⟩ e]
  obtain ⟨d, hrun⟩ := Option.isSome_iff_exists.mp
    (show ((mybuffer Nat (Fin 2)).exec ls start).isSome by decide +kernel)
  exact absurd (hall ls d hrun) (by decide +kernel)

end CAdvanced.Mybuffer
