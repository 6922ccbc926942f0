import Mathlib.Tactic.TypeStar

/-!
# Heap — the lifetime of one object

An object that has been allocated, with its history: how often it has been freed,
and how often it has been used after that. A program with a use after free goes on
with whatever it finds, so a read of a freed object gives junk that the environment
chooses; what matters is that the history never forgets (`Cell.Older`).

* `Cell.Live` — neither freed nor used too late, kept by every use;
* `Cell.Done` — freed once, and nothing was too late;
* `Cell.Sound` — one of the two, so that a sound cell has had a sound history
  (`Cell.Sound.of_older`).
-/

namespace Heap

/-- An allocated object and its history. -/
structure Cell (α : Type*) where
  value : α
  frees : Nat
  lateUses : Nat
  deriving DecidableEq, Repr

namespace Cell
variable {α : Type*} {c d e : Cell α}

/-- A new object. -/
def new (a : α) : Cell α := ⟨a, 0, 0⟩

/-- `free`. -/
def free (c : Cell α) : Cell α := { c with frees := c.frees + 1 }

/-- Some use of the object; too late if it has been freed. -/
def use (c : Cell α) : Cell α :=
  if c.frees = 0 then c else { c with lateUses := c.lateUses + 1 }

/-- What a read finds: `junk k` at the `k`-th read that comes too late. -/
def load (junk : Nat → α) (c : Cell α) : α :=
  if c.frees = 0 then c.value else junk c.lateUses

/-- A write. -/
def store (a : α) (c : Cell α) : Cell α := { c.use with value := a }

@[simp] theorem use_frees (c : Cell α) : c.use.frees = c.frees := by
  unfold use
  split <;> rfl

@[simp] theorem store_frees (a : α) (c : Cell α) : (c.store a).frees = c.frees := use_frees c

/-- Neither freed nor used after that. -/
structure Live (c : Cell α) : Prop where
  frees : c.frees = 0
  lateUses : c.lateUses = 0

/-- Freed once, and not used after that. -/
structure Done (c : Cell α) : Prop where
  frees : c.frees = 1
  lateUses : c.lateUses = 0

/-- Freed at most once, and not used after that. -/
structure Sound (c : Cell α) : Prop where
  frees : c.frees ≤ 1
  lateUses : c.lateUses = 0

theorem live_new (a : α) : Live (new a) := ⟨rfl, rfl⟩

theorem Live.sound (h : c.Live) : c.Sound := ⟨h.frees ▸ Nat.zero_le 1, h.lateUses⟩

theorem Done.sound (h : c.Done) : c.Sound := ⟨Nat.le_of_eq h.frees, h.lateUses⟩

theorem Live.use_eq (h : c.Live) : c.use = c := if_pos h.frees

theorem Live.load_eq (h : c.Live) (junk : Nat → α) : c.load junk = c.value := if_pos h.frees

theorem Live.use (h : c.Live) : c.use.Live := by
  rw [h.use_eq]
  exact h

theorem Live.store (h : c.Live) (a : α) : (c.store a).Live := by
  unfold Cell.store
  rw [h.use_eq]
  exact ⟨h.frees, h.lateUses⟩

theorem Live.free (h : c.Live) : c.free.Done := ⟨congrArg (· + 1) h.frees, h.lateUses⟩

/-- A use of a freed object shows. -/
theorem not_sound_use (h : 1 ≤ c.frees) : ¬ c.use.Sound := by
  intro hsound
  have hlate := hsound.lateUses
  rw [Cell.use, if_neg (by omega)] at hlate
  cases hlate

/-- A second `free` shows. -/
theorem not_sound_free (h : 1 ≤ c.frees) : ¬ c.free.Sound := by
  intro hsound
  have hfrees := hsound.frees
  unfold Cell.free at hfrees
  dsimp only at hfrees
  omega

/-! ## Histories -/

/-- The history of `d` continues that of `c`. -/
structure Older (c d : Cell α) : Prop where
  frees : c.frees ≤ d.frees
  lateUses : c.lateUses ≤ d.lateUses

theorem Older.refl (c : Cell α) : Older c c := ⟨Nat.le_refl _, Nat.le_refl _⟩

theorem Older.trans (h : Older c d) (h' : Older d e) : Older c e :=
  ⟨Nat.le_trans h.frees h'.frees, Nat.le_trans h.lateUses h'.lateUses⟩

theorem older_use (c : Cell α) : Older c c.use := by
  unfold Cell.use
  split
  · exact .refl c
  · exact ⟨Nat.le_refl _, Nat.le_succ _⟩

theorem older_free (c : Cell α) : Older c c.free := ⟨Nat.le_succ _, Nat.le_refl _⟩

/-- **What went wrong once stays wrong.** -/
theorem Sound.of_older (h : Older c d) (hd : d.Sound) : c.Sound :=
  ⟨Nat.le_trans h.frees hd.frees, Nat.le_zero.mp (hd.lateUses ▸ h.lateUses)⟩

end Cell
end Heap
