import Mathlib.Tactic.Common

/-!
# Sequential — Code that may die

Sequential code over a state: it ends with a value, or it dies where it stands (a kernel
thread that follows a NULL pointer), and in both cases leaves a state behind. The rules
here say what a piece of code keeps, whether it ends or dies.
-/

namespace CAdvanced.Sequential

variable {σ α β : Type}

/-- Code over the state `σ`: its value, or none if it died, and the state it leaves. -/
def Code (σ α : Type) : Type := σ → Option α × σ

namespace Code

instance : Monad (Code σ) where
  pure a := fun s => (some a, s)
  bind m f := fun s =>
    match m s with
    | (some a, s') => f a s'
    | (none, s') => (none, s')

/-- The end of a thread that cannot go on. -/
def die : Code σ α := fun s => (none, s)

/-- A look at the state. -/
def read (f : σ → α) : Code σ α := fun s => (some (f s), s)

/-- A change of the state. -/
def write (f : σ → σ) : Code σ Unit := fun s => (some (), f s)

/-- `for (i = 0; i < n; i++)`. -/
def forUpTo : Nat → (Nat → Code σ Unit) → Code σ Unit
  | 0, _ => pure ()
  | n + 1, body => do
    forUpTo n body
    body n

@[simp] theorem pure_run (a : α) (s : σ) : (pure a : Code σ α) s = (some a, s) := rfl

@[simp] theorem die_run (s : σ) : (die : Code σ α) s = (none, s) := rfl

@[simp] theorem read_run (f : σ → α) (s : σ) : read f s = (some (f s), s) := rfl

@[simp] theorem write_run (f : σ → σ) (s : σ) : write f s = (some (), f s) := rfl

theorem bind_run (m : Code σ α) (f : α → Code σ β) (s : σ) :
    (m >>= f) s = match m s with
      | (some a, s') => f a s'
      | (none, s') => (none, s') := rfl

/-! ## What code keeps -/

/-- `P` still holds when the code has ended or died, if it held before. -/
def Keeps (P : σ → Prop) (m : Code σ α) : Prop := ∀ s, P s → P (m s).2

variable {P : σ → Prop}

theorem keeps_pure (a : α) : Keeps P (pure a : Code σ α) := fun _ h => h

theorem keeps_die : Keeps P (die : Code σ α) := fun _ h => h

theorem keeps_read (f : σ → α) : Keeps P (read f) := fun _ h => h

theorem Keeps.bind {m : Code σ α} {f : α → Code σ β} (hm : Keeps P m)
    (hf : ∀ a, Keeps P (f a)) : Keeps P (m >>= f) := by
  intro s hs
  have hmid := hm s hs
  rw [bind_run]
  rcases hrun : m s with ⟨r, s'⟩
  rw [hrun] at hmid
  cases r with
  | none => exact hmid
  | some a => exact hf a s' hmid

theorem Keeps.bind_read {f : σ → α} {g : α → Code σ β} (h : ∀ s, P s → P (g (f s) s).2) :
    Keeps P (read f >>= g) := h

theorem Keeps.forUpTo {body : Nat → Code σ Unit} (h : ∀ i, Keeps P (body i)) (n : Nat) :
    Keeps P (forUpTo n body) := by
  induction n with
  | zero => exact keeps_pure ()
  | succ n ih => exact ih.bind fun _ => h n

/-! ## Code that does not die -/

/-- The code ends, from every state. -/
def Ends (m : Code σ α) : Prop := ∀ s, ∃ a, (m s).1 = some a

theorem Ends.bind {m : Code σ α} {f : α → Code σ β} (hm : Ends m) (hf : ∀ a, Ends (f a)) :
    Ends (m >>= f) := by
  intro s
  obtain ⟨a, ha⟩ := hm s
  rcases hrun : m s with ⟨r, s'⟩
  rw [hrun] at ha
  cases ha
  rw [bind_run, hrun]
  exact hf a s'

theorem Ends.forUpTo {body : Nat → Code σ Unit} (h : ∀ i, Ends (body i)) (n : Nat) :
    Ends (forUpTo n body) := by
  induction n with
  | zero => exact fun _ => ⟨(), rfl⟩
  | succ n ih => exact ih.bind fun _ => h n

end Code

end CAdvanced.Sequential
