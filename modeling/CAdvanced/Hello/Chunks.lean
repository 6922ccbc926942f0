import CAdvanced.CInt.Wrap
import CAdvanced.Sequential.Drain
import Mathlib.Data.List.TakeWhile

/-!
# Hello — Chunks

The device of `hello.c`, which gives out one string with its NUL. `read_hello` compares
`*offset` with the length of the string and moves it on, but it cuts a request down to that
length and not to what is left, and it copies from the start of the string each time. So a
reader gets the string when its first request has room for all of it. A smaller one is
followed by a part that begins with the `H` again, and no `H` stands further on in the
string.
-/

namespace CAdvanced.Hello

open CInt CAdvanced.Sequential

/-- `hello`, with its NUL. -/
def hello : List Char := "Hello from Group 20\n".toList ++ ['\x00']

/-- `read_hello(instanz, user, count, offset)`, where `copy_to_user` leaves `notCopied`
characters out; the state is `*offset`, which the comparison makes unsigned. -/
def readHello (notCopied : Nat) (offset : Int) (count : Nat) : Reading Int Char :=
  let toCopy := hello.length
  if toCopy ≤ unsigned 64 offset then ⟨offset, 0, []⟩
  else
    let toCopy := min toCopy count
    let copied := toCopy - notCopied
    ⟨signed 64 (offset + copied), copied, hello.take copied⟩

theorem hello_length : hello.length = 21 := by decide +kernel

/-- The only `H` is the first character. -/
theorem eq_zero_of_hello_eq {k : Nat} (h : hello[k]? = some 'H') : k = 0 := by
  have hall : ∀ i : Fin 21, hello[i.val]? = some 'H' → i.val = 0 := by decide +kernel
  obtain ⟨hk, -⟩ := List.getElem?_eq_some_iff.mp h
  rw [hello_length] at hk
  exact hall ⟨k, hk⟩ h

/-! ## One read -/

/-- At the end, or behind it, nothing is read. -/
theorem readHello_last {o : Nat} (ho : hello.length ≤ o) (hfits : o < 2 ^ 63) (count : Nat) :
    readHello 0 o count = ⟨o, 0, []⟩ := by
  have hunsigned : (unsigned 64 o : Int) = o := unsigned_of_fits (Int.natCast_nonneg o) (by omega)
  unfold readHello
  rw [if_pos (by omega)]

/-- Before the end, the part is a beginning of the string. -/
theorem readHello_more {o : Nat} (ho : o < hello.length) (count : Nat) :
    readHello 0 o count
      = ⟨(o + min hello.length count : Nat), min hello.length count,
          hello.take (min hello.length count)⟩ := by
  rw [hello_length] at ho
  have hunsigned : (unsigned 64 o : Int) = o := unsigned_of_fits (Int.natCast_nonneg o) (by omega)
  have hsigned : signed 64 ((o : Int) + (min hello.length count : Nat))
      = (o + min hello.length count : Nat) := by
    rw [Int.natCast_add]
    apply signed_of_fits <;> rw [hello_length] <;> omega
  unfold readHello
  rw [if_neg (by rw [hello_length]; omega)]
  dsimp only
  rw [Nat.sub_zero, hsigned]

/-! ## All reads -/

/-- `*offset` is a number, and far from the end of its type. -/
def Offset (offset : Int) : Prop := 0 ≤ offset ∧ offset < 42

/-- How far it is to the end. -/
def left (offset : Int) : Nat := (21 - offset).toNat

theorem readHello_step {offset : Int} {count : Nat} (hs : Offset offset) (hcount : 0 < count)
    (hret : (readHello 0 offset count).ret ≠ 0) :
    Offset (readHello 0 offset count).state
      ∧ left (readHello 0 offset count).state < left offset := by
  obtain ⟨o, rfl⟩ := Int.eq_ofNat_of_zero_le hs.1
  have hhigh := hs.2
  rcases Nat.lt_or_ge o hello.length with hlt | hge
  · have hread : (readHello 0 o count).state = (o + min hello.length count : Nat) := by
      rw [readHello_more hlt count]
    rw [hello_length] at hlt hread
    unfold Offset left
    rw [hread]
    omega
  · rw [readHello_last hge (by omega) count] at hret
    exact absurd rfl hret

variable {counts : Nat → Nat} {fuel : Nat}

/-- The reads come to an end. -/
theorem drain_isSome (hpos : ∀ k, 0 < counts k) {k : Nat} {offset : Int} (hs : Offset offset)
    (hfuel : left offset < fuel) :
    ∃ parts, drain (readHello 0) counts fuel k offset = some parts := by
  obtain ⟨parts, hparts, -⟩ := drain_of_measure Offset left hpos
    (fun hs hcount hret => readHello_step hs hcount hret) hs hfuel
  exact ⟨parts, hparts⟩

/-- Before the end, there is a part, and what the later reads deliver. -/
theorem drain_before {k o : Nat} {parts : List (List Char)} (ho : o < hello.length)
    (hcount : 0 < counts k) (h : drain (readHello 0) counts (fuel + 1) k o = some parts) :
    ∃ rest, parts = hello.take (min hello.length (counts k)) :: rest
      ∧ drain (readHello 0) counts fuel (k + 1) (o + min hello.length (counts k) : Nat)
        = some rest := by
  have hread := readHello_more ho (counts k)
  have hret : (readHello 0 o (counts k)).ret ≠ 0 := by
    rw [hread]
    dsimp only
    omega
  rw [drain_more hret, hread] at h
  obtain ⟨rest, hrest, hparts⟩ := Option.map_eq_some_iff.mp h
  exact ⟨rest, hparts.symm, hrest⟩

/-- A part begins with the `H`. -/
theorem head_take {n : Nat} (hn : 0 < n) : (hello.take n).head? = some 'H' := by
  rw [List.head?_take, if_neg (Nat.ne_of_gt hn)]
  rfl

/-- **The string in parts**: whatever a freshly opened instance is asked for at a time, the
reads come to an end; the parts are the string just when the first request has room for all
of it. -/
theorem string_reads_iff (hpos : ∀ k, 0 < counts k) (hfuel : 21 < fuel) :
    ∃ parts, drain (readHello 0) counts fuel 0 0 = some parts
      ∧ (parts.flatten = hello ↔ hello.length ≤ counts 0) := by
  have hstart : Offset 0 := by
    unfold Offset
    decide
  obtain ⟨parts, hparts⟩ := drain_isSome hpos (k := 0) hstart hfuel
  refine ⟨parts, hparts, ?_⟩
  obtain ⟨n, rfl⟩ : ∃ n, fuel = n + 2 := ⟨fuel - 2, by omega⟩
  have hzero : 0 < hello.length := by
    rw [hello_length]
    decide
  obtain ⟨rest, rfl, hrest⟩ := drain_before hzero (hpos 0) hparts
  rw [Nat.zero_add (min hello.length (counts 0))] at hrest
  constructor
  · intro hflat
    by_contra hshort
    -- the second part begins in the middle of the string
    have hlt : counts 0 < hello.length := Nat.not_le.mp hshort
    rw [Nat.min_eq_right (Nat.le_of_lt hlt)] at hrest hflat
    obtain ⟨rest', rfl, -⟩ := drain_before hlt (hpos 1) hrest
    rw [List.flatten_cons, List.flatten_cons] at hflat
    have hdrop := List.append_cancel_left
      (hflat.trans (List.take_append_drop (counts 0) hello).symm)
    have hsecond := hpos 1
    have hhead : (hello.take (min hello.length (counts 1))).head? = some 'H' :=
      head_take (by omega)
    have hget : hello[counts 0]? = some 'H' := by
      rw [← List.head?_drop, ← hdrop, List.head?_append, hhead]
      rfl
    have hfirst := hpos 0
    have hnone := eq_zero_of_hello_eq hget
    omega
  · intro hroom
    rw [Nat.min_eq_left hroom] at hrest ⊢
    have hfits : hello.length < 2 ^ 63 := by
      rw [hello_length]
      decide
    have hlast := readHello_last (Nat.le_refl hello.length) hfits (counts 1)
    rw [drain_last (by rw [hlast])] at hrest
    obtain rfl := Option.some.inj hrest
    rw [List.take_length, List.flatten_cons, List.flatten_nil, List.append_nil]

/-- As `cat` reads. -/
theorem string_reads_iff_cat :
    ∃ parts, drain (readHello 0) (fun _ => 131072) 22 0 0 = some parts ∧ parts.flatten = hello := by
  have hpos : ∀ k, 0 < (fun _ : Nat => 131072) k := fun _ => Nat.succ_pos 131071
  obtain ⟨parts, hparts, hiff⟩ := string_reads_iff hpos (Nat.lt_succ_self 21)
  exact ⟨parts, hparts, hiff.mpr (by rw [hello_length]; decide)⟩

/-- Twenty characters and then more: the NUL is never delivered, and the string comes twice. -/
theorem not_string_reads :
    ¬ ∀ (counts : Nat → Nat) (fuel : Nat), (∀ k, 0 < counts k) → 21 < fuel →
      ∃ parts, drain (readHello 0) counts fuel 0 0 = some parts ∧ parts.flatten = hello := by
  intro hall
  obtain ⟨parts, hparts, hflat⟩ := hall (fun _ => 20) 22 (fun _ => Nat.succ_pos 19) (by decide)
  have hrun : drain (readHello 0) (fun _ => 20) 22 0 0 = some [hello.take 20, hello.take 20] := by
    decide +kernel
  rw [hrun] at hparts
  obtain rfl := Option.some.inj hparts
  exact absurd hflat (by decide +kernel)

end CAdvanced.Hello
