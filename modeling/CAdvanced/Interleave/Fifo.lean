import CAdvanced.Interleave.System

/-!
# Interleave — the atomic FIFO queue

What a concurrent queue is to look like: a list, an enqueue appends to it, a
dequeue takes the first value, and a dequeue that finds nothing finds the list
empty. A step says which of these it is, so the runs are the legal histories.
-/

namespace Interleave

/-- One operation on the queue, with the value it carries. -/
inductive FifoEvent (β : Type*) where
  | enq (v : β)
  | deq (v : β)
  | deqEmpty
  deriving DecidableEq, Repr

namespace FifoEvent
variable {β : Type*}

/-- The value that goes in. -/
def enqueued : FifoEvent β → Option β
  | .enq v => some v
  | _ => none

/-- The value that comes out. -/
def dequeued : FifoEvent β → Option β
  | .deq v => some v
  | _ => none

end FifoEvent

variable {β : Type*} [DecidableEq β]

/-- One step of the queue; a dequeue must name the value in front. -/
def fifoStep : FifoEvent β → List β → Option (List β)
  | .enq v, q => some (q ++ [v])
  | .deq v, x :: q => if x = v then some q else none
  | .deq _, [] => none
  | .deqEmpty, [] => some []
  | .deqEmpty, _ :: _ => none

/-- The atomic queue, from the empty one. -/
def fifo (β : Type*) [DecidableEq β] : System (List β) (FifoEvent β) := ⟨[], fifoStep⟩

theorem fifoStep_deq (v : β) (q : List β) : fifoStep (.deq v) (v :: q) = some q :=
  if_pos rfl

theorem fifoStep_balance {e : FifoEvent β} {q q' : List β} (h : fifoStep e q = some q') :
    q ++ e.enqueued.toList = e.dequeued.toList ++ q' := by
  cases e with
  | enq v => cases h; rfl
  | deq v =>
      cases q with
      | nil => cases h
      | cons x q =>
          by_cases hx : x = v
          · subst hx
            rw [fifoStep_deq] at h
            cases h
            exact List.append_nil _
          · rw [fifoStep, if_neg hx] at h
            cases h
  | deqEmpty =>
      cases q with
      | nil => cases h; rfl
      | cons x q => cases h

theorem fifo_exec_balance {es : List (FifoEvent β)} {q q' : List β}
    (h : (fifo β).exec es q = some q') :
    q ++ es.filterMap FifoEvent.enqueued = es.filterMap FifoEvent.dequeued ++ q' := by
  induction es generalizing q with
  | nil => cases h; exact List.append_nil _
  | cons e es ih =>
      obtain ⟨r, hr, hes⟩ := System.exec_cons_eq_some.mp h
      have hcons : ∀ f : FifoEvent β → Option β,
          (e :: es).filterMap f = (f e).toList ++ es.filterMap f := by
        intro f
        cases hf : f e <;> simp [hf]
      rw [hcons, hcons, ← List.append_assoc, fifoStep_balance hr, List.append_assoc, ih hes,
        List.append_assoc]

/-- **First in, first out**: in every history the values that went in are those
that came out, in the same order, followed by the contents. -/
theorem fifo_balance {es : List (FifoEvent β)} {q : List β} (h : (fifo β).Reaches es q) :
    es.filterMap FifoEvent.enqueued = es.filterMap FifoEvent.dequeued ++ q :=
  fifo_exec_balance h

end Interleave
