import Mathlib.Data.List.TakeWhile

/-!
# CText — C strings

A C string is what a memory holds up to its first NUL. The functions on strings look at the
memory from a place on, one byte after the other; when there is no NUL they run off the end
of the memory, and nothing comes of that (`none`).
-/

namespace CText

variable {β : Type*} [Zero β] [DecidableEq β]

/-- `strlen`. -/
def strlen : List β → Option Nat
  | [] => none
  | b :: m => if b = 0 then some 0 else (strlen m).map (· + 1)

/-- How many bytes `strlen` looks at: the NUL as well, or the one that is not there. -/
def strlenLooks : List β → Nat
  | [] => 1
  | b :: m => if b = 0 then 1 else strlenLooks m + 1

/-- `strchr`: the place of the character, if the string has it. -/
def strchr (c : β) : List β → Option (Option Nat)
  | [] => none
  | b :: m =>
      if b = c then some (some 0)
      else if b = 0 then some none
      else (strchr c m).map (·.map (· + 1))

/-- How many bytes `strchr` looks at. -/
def strchrLooks (c : β) : List β → Nat
  | [] => 1
  | b :: m => if b = c ∨ b = 0 then 1 else strchrLooks c m + 1

/-- The string. -/
def cstr (m : List β) : Option (List β) := (strlen m).map fun n => m.take n

/-- What stands before the first `c` or NUL. -/
def before (c : β) (m : List β) : List β := m.takeWhile fun b => b ≠ c ∧ b ≠ 0

/-! ## Past what does not stop a function

Where the bytes looked at first are neither the NUL nor the character that is looked for, a
function goes on behind them.
-/

theorem strlen_append {s : List β} (hs : 0 ∉ s) (m : List β) :
    strlen (s ++ m) = (strlen m).map (· + s.length) := by
  induction s with
  | nil => simp
  | cons b s ih =>
      obtain ⟨hb, hs⟩ := not_or.mp (List.mem_cons.not.mp hs)
      rw [List.cons_append, strlen, if_neg (Ne.symm hb), ih hs, Option.map_map]
      rfl

theorem strlenLooks_append {s : List β} (hs : 0 ∉ s) (m : List β) :
    strlenLooks (s ++ m) = strlenLooks m + s.length := by
  induction s with
  | nil => rfl
  | cons b s ih =>
      obtain ⟨hb, hs⟩ := not_or.mp (List.mem_cons.not.mp hs)
      rw [List.cons_append, strlenLooks, if_neg (Ne.symm hb), ih hs, List.length_cons]
      rfl

theorem strchr_append {c : β} {s : List β} (hc : c ∉ s) (hs : 0 ∉ s) (m : List β) :
    strchr c (s ++ m) = (strchr c m).map (·.map (· + s.length)) := by
  induction s with
  | nil => simp
  | cons b s ih =>
      obtain ⟨hcb, hc⟩ := not_or.mp (List.mem_cons.not.mp hc)
      obtain ⟨hb, hs⟩ := not_or.mp (List.mem_cons.not.mp hs)
      rw [List.cons_append, strchr, if_neg (Ne.symm hcb), if_neg (Ne.symm hb), ih hc hs,
        Option.map_map]
      congr 1
      funext pos
      exact Option.map_map _ _ pos

theorem strchrLooks_append {c : β} {s : List β} (hc : c ∉ s) (hs : 0 ∉ s) (m : List β) :
    strchrLooks c (s ++ m) = strchrLooks c m + s.length := by
  induction s with
  | nil => rfl
  | cons b s ih =>
      obtain ⟨hcb, hc⟩ := not_or.mp (List.mem_cons.not.mp hc)
      obtain ⟨hb, hs⟩ := not_or.mp (List.mem_cons.not.mp hs)
      have hnot : ¬ (b = c ∨ b = 0) := not_or.mpr ⟨Ne.symm hcb, Ne.symm hb⟩
      rw [List.cons_append, strchrLooks, if_neg hnot, ih hc hs, List.length_cons]
      rfl

/-! ## A string, its NUL, and anything behind it -/

theorem strlen_string {s : List β} (hs : 0 ∉ s) (m : List β) :
    strlen (s ++ 0 :: m) = some s.length := by
  rw [strlen_append hs, strlen, if_pos rfl, Option.map_some, Nat.zero_add]

theorem strlenLooks_string {s : List β} (hs : 0 ∉ s) (m : List β) :
    strlenLooks (s ++ 0 :: m) = s.length + 1 := by
  rw [strlenLooks_append hs, strlenLooks, if_pos rfl, Nat.add_comm]

theorem cstr_string {s : List β} (hs : 0 ∉ s) (m : List β) : cstr (s ++ 0 :: m) = some s := by
  rw [cstr, strlen_string hs, Option.map_some, List.take_left]

/-- What is followed by another character than the NUL is not the whole string. -/
theorem cstr_ne {s : List β} (hs : 0 ∉ s) {x : β} (hx : x ≠ 0) (m : List β) :
    cstr (s ++ x :: m) ≠ some s := by
  intro h
  rw [cstr, strlen_append hs, strlen, if_neg hx, Option.map_map, Option.map_map] at h
  obtain ⟨k, -, hk⟩ := Option.map_eq_some_iff.mp h
  have htake : (s ++ x :: m).take (k + 1 + s.length) = s := hk
  rw [Nat.add_comm, List.take_length_add_append, List.take_succ_cons] at htake
  cases List.append_right_eq_self.mp htake

/-- A character that the string does not have is not found. -/
theorem strchr_string {c : β} {s : List β} (hc : c ∉ s) (hzero : c ≠ 0) (hs : 0 ∉ s)
    (m : List β) : strchr c (s ++ 0 :: m) = some none := by
  rw [strchr_append hc hs, strchr, if_neg (Ne.symm hzero), if_pos rfl]
  rfl

/-- The first one is found. -/
theorem strchr_found {c : β} {s : List β} (hc : c ∉ s) (hs : 0 ∉ s) (m : List β) :
    strchr c (s ++ c :: m) = some (some s.length) := by
  rw [strchr_append hc hs, strchr, if_pos rfl, Option.map_some, Option.map_some, Nat.zero_add]

/-- Either of the two ends the search. -/
theorem strchrLooks_stop {c b : β} {s : List β} (hc : c ∉ s) (hs : 0 ∉ s) (hb : b = c ∨ b = 0)
    (m : List β) : strchrLooks c (s ++ b :: m) = s.length + 1 := by
  rw [strchrLooks_append hc hs, strchrLooks, if_pos hb, Nat.add_comm]

theorem strlenLooks_pos (m : List β) : 0 < strlenLooks m := by
  cases m with
  | nil => exact Nat.one_pos
  | cons b m =>
      rw [strlenLooks]
      split <;> exact Nat.succ_pos _

/-- `strlen` sees all of a memory without a NUL, and what is behind it. -/
theorem lt_strlenLooks {s : List β} (hs : 0 ∉ s) (m : List β) :
    s.length < strlenLooks (s ++ m) := by
  rw [strlenLooks_append hs]
  exact Nat.lt_add_of_pos_left (strlenLooks_pos m)

/-! ## Up to a character or the end of the string -/

theorem before_nil (c : β) : before c [] = [] := rfl

theorem before_cons (c x : β) (m : List β) :
    before c (x :: m) = if x = c ∨ x = 0 then [] else x :: before c m := by
  unfold before
  split
  · next hx => exact List.takeWhile_cons_of_neg (by simpa using fun h => hx.resolve_left h)
  · next hx => exact List.takeWhile_cons_of_pos (by simpa using not_or.mp hx)

theorem notMem_before (c : β) (m : List β) : c ∉ before c m ∧ 0 ∉ before c m := by
  induction m with
  | nil => exact ⟨List.not_mem_nil, List.not_mem_nil⟩
  | cons x m ih =>
      rw [before_cons]
      split
      · exact ⟨List.not_mem_nil, List.not_mem_nil⟩
      · next hx =>
        obtain ⟨hxc, hx0⟩ := not_or.mp hx
        exact ⟨List.not_mem_cons_of_ne_of_not_mem (Ne.symm hxc) ih.1,
          List.not_mem_cons_of_ne_of_not_mem (Ne.symm hx0) ih.2⟩

theorem before_append {c : β} {s : List β} (hc : c ∉ s) (hs : 0 ∉ s) (m : List β) :
    before c (s ++ m) = s ++ before c m := by
  induction s with
  | nil => rfl
  | cons x s ih =>
      obtain ⟨hxc, hc⟩ := not_or.mp (List.mem_cons.not.mp hc)
      obtain ⟨hx0, hs⟩ := not_or.mp (List.mem_cons.not.mp hs)
      have hnot : ¬ (x = c ∨ x = 0) := not_or.mpr ⟨Ne.symm hxc, Ne.symm hx0⟩
      rw [List.cons_append, before_cons, if_neg hnot, ih hc hs, List.cons_append]

theorem before_eq_self {c : β} {m : List β} (hc : c ∉ m) (hm : 0 ∉ m) : before c m = m := by
  have happend := before_append hc hm []
  rwa [List.append_nil, before_nil, List.append_nil] at happend

/-- One of the two stops the scan, when one of them is there. -/
theorem eq_before_append {c : β} {m : List β} (h : c ∈ m ∨ 0 ∈ m) :
    ∃ b rest, (b = c ∨ b = 0) ∧ m = before c m ++ b :: rest := by
  induction m with
  | nil => exact absurd h (not_or.mpr ⟨List.not_mem_nil, List.not_mem_nil⟩)
  | cons x m ih =>
      rw [before_cons]
      split
      · next hx => exact ⟨x, m, hx, rfl⟩
      · next hx =>
        obtain ⟨hxc, hx0⟩ := not_or.mp hx
        obtain ⟨b, rest, hb, heq⟩ := ih
          (h.imp (List.mem_of_ne_of_mem (Ne.symm hxc)) (List.mem_of_ne_of_mem (Ne.symm hx0)))
        exact ⟨b, rest, hb, congrArg (x :: ·) heq⟩

end CText
