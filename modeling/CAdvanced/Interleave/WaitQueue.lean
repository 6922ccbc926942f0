import Mathlib.Logic.Function.Basic

/-!
# Interleave — wait queues

Sleeping until a condition holds, with the race that it entails: the caller looks at
the condition, enters the queue, looks again, and only then sleeps. A wake-up takes
everybody off the queue, and a sleeper that is off the queue may run. A signal makes a
sleeper run as well; it gives up if the condition is still false.

The condition itself is a `Bool` here that the caller computes from the memory at each
step, so that others may change it between any two steps.
-/

namespace Interleave

/-- Who is on the queue. -/
abbrev WaitQueue (ι : Type*) := ι → Bool

namespace WaitQueue
variable {ι : Type*} [DecidableEq ι]

def enter (i : ι) (q : WaitQueue ι) : WaitQueue ι := Function.update q i true

def leave (i : ι) (q : WaitQueue ι) : WaitQueue ι := Function.update q i false

/-- The wake-up: nobody stays on the queue. -/
def wakeUp (_ : WaitQueue ι) : WaitQueue ι := fun _ => false

omit [DecidableEq ι] in
@[simp] theorem wakeUp_apply (q : WaitQueue ι) (i : ι) : q.wakeUp i = false := rfl

theorem enter_of_ne {i j : ι} (h : j ≠ i) (q : WaitQueue ι) : q.enter i j = q j :=
  Function.update_of_ne h _ _

theorem leave_of_ne {i j : ι} (h : j ≠ i) (q : WaitQueue ι) : q.leave i j = q j :=
  Function.update_of_ne h _ _

end WaitQueue

/-- Where a waiting call stands. -/
inductive WaitPc where
  | test
  | prepare
  | recheck (interrupted : Bool)
  | asleep
  | finish
  deriving DecidableEq, Repr

/-- What one step of a waiting call leads to. -/
inductive WaitCtl where
  | goto (p : WaitPc)
  | ready
  | interrupted
  deriving DecidableEq, Repr

/-- Continues a waiting call. -/
def WaitCtl.resume {κ : Type*} (k : WaitPc → κ) (r r' : κ) : WaitCtl → κ
  | .goto p => k p
  | .ready => r
  | .interrupted => r'

/-- One step of a call of `i` that waits for `condition`. -/
def waitEvent {ι : Type*} [DecidableEq ι] (i : ι) (condition signal : Bool)
    (q : WaitQueue ι) : WaitPc → Option (WaitQueue ι × WaitCtl)
  | .test => some (q, if condition then .ready else .goto .prepare)
  | .prepare =>
      if signal then some (q.leave i, .goto (.recheck true))
      else some (q.enter i, .goto (.recheck false))
  | .recheck interrupted =>
      some (q, if condition then .goto .finish
        else if interrupted then .interrupted else .goto .asleep)
  | .asleep => if q i ∧ ¬ signal then none else some (q, .goto .prepare)
  | .finish => some (q.leave i, .ready)

/-- What a step of a waiting call may do. -/
structure WaitStep {ι : Type*} (i : ι) (condition : Bool) (q : WaitQueue ι) (p : WaitPc)
    (q' : WaitQueue ι) (r : WaitCtl) : Prop where
  others : ∀ j, j ≠ i → q' j = q j
  sleeps : r = .goto .asleep → condition = false
  passes : r = .goto .finish ∨ r = .ready → p = .finish ∨ condition = true

theorem waitEvent_step {ι : Type*} [DecidableEq ι] {i : ι} {condition signal : Bool}
    {q q' : WaitQueue ι} {p : WaitPc} {r : WaitCtl}
    (h : waitEvent i condition signal q p = some (q', r)) :
    WaitStep i condition q p q' r := by
  cases p with
  | test =>
      cases h
      cases condition <;> exact ⟨fun _ _ => rfl, by simp, by simp⟩
  | prepare =>
      cases signal with
      | true =>
          cases h
          exact ⟨fun j hj => q.leave_of_ne hj, by simp, by simp⟩
      | false =>
          cases h
          exact ⟨fun j hj => q.enter_of_ne hj, by simp, by simp⟩
  | recheck interrupted =>
      cases h
      cases condition with
      | true => exact ⟨fun _ _ => rfl, by simp, by simp⟩
      | false => cases interrupted <;> exact ⟨fun _ _ => rfl, by simp, by simp⟩
  | asleep =>
      simp only [waitEvent, Option.ite_none_left_eq_some] at h
      cases h.2
      exact ⟨fun _ _ => rfl, by simp, by simp⟩
  | finish =>
      cases h
      exact ⟨fun j hj => q.leave_of_ne hj, by simp, fun _ => .inl rfl⟩

end Interleave
