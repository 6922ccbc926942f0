import Mathlib.Data.Option.Basic

/-!
# Interleave — semaphores and mutexes

The two blocking primitives, as one atomic step each. A semaphore is its
count, and nothing says who is served first: any waiting thread may be the
one that takes the next unit. A mutex remembers its holder, so that "released
by the thread that took it" can be stated; like the real one it does not
check it.
-/

namespace Interleave

/-- Waiting takes one unit, and blocks on an empty semaphore. -/
def semWait : Nat → Option Nat
  | 0 => none
  | n + 1 => some n

/-- Posting adds one unit. -/
def semPost (s : Nat) : Nat := s + 1

@[simp] theorem semWait_eq_some {s t : Nat} : semWait s = some t ↔ s = t + 1 := by
  cases s <;> simp [semWait]

theorem semWait_isSome {s : Nat} (h : 0 < s) : (semWait s).isSome := by
  cases s with
  | zero => exact absurd h (Nat.lt_irrefl 0)
  | succ n => rfl

/-- A mutex: free, or held by one thread. -/
abbrev Mutex (ι : Type*) := Option ι

namespace Mutex
variable {ι : Type*}

/-- Locking blocks unless the mutex is free. -/
def lock (i : ι) : Mutex ι → Option (Mutex ι)
  | none => some (some i)
  | some _ => none

/-- Unlocking frees the mutex, whoever held it. -/
def unlock (_ : Mutex ι) : Mutex ι := none

@[simp] theorem lock_eq_some {i : ι} {m m' : Mutex ι} :
    m.lock i = some m' ↔ m = none ∧ m' = some i := by
  cases m <;> simp [lock, eq_comm]

@[simp] theorem unlock_eq (m : Mutex ι) : m.unlock = none := rfl

/-- What a step of thread `i` may do to a mutex, and to the question whether `i`
is in its critical section. -/
inductive Moves (i : ι) : Mutex ι → Bool → Mutex ι → Bool → Prop
  | keep {m : Mutex ι} {b : Bool} : Moves i m b m b
  | lock : Moves i none false (some i) true
  | unlock {m : Mutex ι} : Moves i m true none false

/-- A step that leaves both as they are. -/
theorem Moves.of_eq {i : ι} {m m' : Mutex ι} {b b' : Bool} (hm : m' = m) (hb : b' = b) :
    Moves i m b m' b' := by
  rw [hm, hb]
  exact .keep

/-- Whoever is in the section holds the mutex, before and after a step. -/
theorem Moves.owner {i : ι} {m m' : Mutex ι} {b b' : Bool} {owns owns' : ι → Bool}
    (h : Moves i m b m' b') (hinv : ∀ j, owns j = true → m = some j) (hb : owns i = b)
    (hb' : owns' i = b') (hothers : ∀ j, j ≠ i → owns' j = owns j) (j : ι)
    (hj : owns' j = true) : m' = some j := by
  by_cases hji : j = i
  · subst hji
    rw [hb'] at hj
    cases h with
    | keep => exact hinv j (hb.trans hj)
    | lock => rfl
    | unlock => cases hj
  · rw [hothers j hji] at hj
    have hm := hinv j hj
    cases h with
    | keep => exact hm
    | lock => cases hm
    | unlock =>
        have hi := hinv i hb
        exact absurd (Option.some.inj (hm.symm.trans hi)) hji

/-- **The holder is the one in the section**, before and after a step. -/
theorem Moves.holder {i : ι} {m m' : Mutex ι} {b b' : Bool} {owns owns' : ι → Bool}
    (h : Moves i m b m' b') (hinv : ∀ j, owns j = true ↔ m = some j) (hb : owns i = b)
    (hb' : owns' i = b') (hothers : ∀ j, j ≠ i → owns' j = owns j) (j : ι) :
    owns' j = true ↔ m' = some j := by
  by_cases hj : j = i
  · subst hj
    rw [hb']
    cases h with
    | keep => rw [← hb]; exact hinv j
    | lock => exact ⟨fun _ => rfl, fun _ => rfl⟩
    | unlock => exact ⟨(nomatch ·), (nomatch ·)⟩
  · rw [hothers j hj, hinv j]
    cases h with
    | keep => exact Iff.rfl
    | lock => exact ⟨(nomatch ·), fun h => absurd (Option.some.inj h).symm hj⟩
    | unlock =>
        have hi := (hinv i).mp hb
        exact ⟨fun h => absurd (Option.some.inj (h.symm.trans hi)) hj, (nomatch ·)⟩

end Mutex
end Interleave
