import Mathlib.Tactic.Common

/-!
# Interleave — A delayed work item

One item of deferred work: it is pending from the moment it is scheduled until a worker
takes it up or it is cancelled, and at most one worker runs its function at a time. The
function may schedule the item again while it runs. Cancelling takes back a pending item
and does not wait for a running function.
-/

namespace Interleave

/-- A work item, with the place of its function if it is running. -/
structure WorkItem (π : Type) where
  pending : Bool
  running : Option π
  deriving DecidableEq, Repr

namespace WorkItem

variable {π : Type}

/-- An item that nobody has scheduled. -/
def fresh : WorkItem π := ⟨false, none⟩

/-- Schedule the item; whether it was not pending already. -/
def schedule (w : WorkItem π) : Bool × WorkItem π := (!w.pending, { w with pending := true })

/-- Take the item back; whether it was pending. -/
def cancel (w : WorkItem π) : Bool × WorkItem π := (w.pending, { w with pending := false })

/-- Take the item back and see that its function is over: as long as that is running, there
is only waiting. -/
def cancelSync (w : WorkItem π) : Option (Bool × WorkItem π) :=
  if w.running.isNone then some w.cancel else none

/-- A worker takes a pending item up, and starts its function at `entry`. -/
def begin (entry : π) (w : WorkItem π) : Option (WorkItem π) :=
  if w.pending && w.running.isNone then some ⟨false, some entry⟩ else none

/-- The item is nowhere: neither pending nor running. -/
def Idle (w : WorkItem π) : Prop := w.pending = false ∧ w.running = none

/-- **Cancelling and waiting** leaves the item idle, and tells whether it was pending. -/
theorem cancelSync_eq_some {w w' : WorkItem π} {b : Bool} :
    w.cancelSync = some (b, w') ↔ w.running = none ∧ b = w.pending ∧ w' = ⟨false, none⟩ := by
  obtain ⟨pending, running⟩ := w
  cases running with
  | none => simp [cancelSync, cancel, eq_comm]
  | some p => simp [cancelSync]

theorem begin_eq_some {entry : π} {w w' : WorkItem π} :
    w.begin entry = some w' ↔ w.pending = true ∧ w.running = none ∧ w' = ⟨false, some entry⟩ := by
  obtain ⟨pending, running⟩ := w
  cases pending <;> cases running <;> simp [begin, eq_comm]

variable [DecidableEq π]

/-- The function is running, and not yet at its place `last`. -/
def before (last : π) (w : WorkItem π) : Bool := w.running.any (· ≠ last)

/-- The item will run again, if only `last` is left to do once the function has scheduled it:
it is pending, or the function is still on its way to that. -/
def alive (last : π) (w : WorkItem π) : Bool := w.pending || w.before last

omit [DecidableEq π] in
/-- Nobody takes up an idle item. -/
theorem Idle.begin_eq_none {w : WorkItem π} (h : w.Idle) (entry : π) : w.begin entry = none := by
  simp [begin, h.1]

end WorkItem

end Interleave
