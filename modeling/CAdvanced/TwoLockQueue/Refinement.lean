import CAdvanced.TwoLockQueue.Invariant

/-!
# TwoLockQueue — Refinement

The queue is an atomic FIFO queue: the values on the chain after `q->head` are
its contents, an enqueue happens when it sets `tail->next`, and a dequeue when
it advances `q->head` or finds that there is nothing after it.
-/

namespace CAdvanced.TwoLockQueue

open Interleave System Heap

variable {ι α : Type}

/-! ## What a run shows -/

/-- The queue operation that a step carries out. -/
def fifoEvent (m : Move ι α) (c : Conf ι (Queue ι α) (Worker α)) : Option (FifoEvent Int) :=
  (c.threads m.tid).event c.shared

/-- The node that a step links in. -/
def linked (m : Move ι α) (c : Conf ι (Queue ι α) (Worker α)) : Option α :=
  (c.threads m.tid).links

/-- The node that a step unlinks. -/
def unlinked (m : Move ι α) (c : Conf ι (Queue ι α) (Worker α)) : Option α :=
  (c.threads m.tid).unlinks

/-- The call that a queue operation answers. -/
def callOf : FifoEvent Int → Op
  | .enq v => .enqueue v
  | .deq _ | .deqEmpty => .dequeue

/-- The call of thread `i` that a step carries out. -/
def carriedOut [DecidableEq ι] (i : ι) (m : Move ι α)
    (c : Conf ι (Queue ι α) (Worker α)) : Option Op :=
  if m.tid = i then (fifoEvent m c).map callOf else none

/-- The calls of a thread that have not been carried out. -/
def Worker.pending : Worker α → List Op
  | ⟨.idle, calls⟩ => calls
  | ⟨.enqueue _ (.storeTail _), calls⟩ | ⟨.enqueue _ .unlockTail, calls⟩ => calls
  | ⟨.enqueue v _, calls⟩ => .enqueue v :: calls
  | ⟨.dequeue .unlockEmpty, calls⟩ | ⟨.dequeue (.unlockHead _), calls⟩
  | ⟨.dequeue (.free _), calls⟩ => calls
  | ⟨.dequeue _, calls⟩ => .dequeue :: calls

variable [DecidableEq α]

/-- The calls: a step carries out the first call that is pending, or none. -/
theorem worker_pending {i : ι} {m : Malloc α} {q q' : Queue ι α} {w w' : Worker α}
    {L : List α} (hchain : IsChain q.link (q.head :: L)) (hknows : w.Knows q L)
    (h : worker i m q w = some (q', w')) :
    w.pending = ((w.event q).map callOf).toList ++ w'.pending := by
  obtain ⟨pc, calls⟩ := w
  cases pc with
  | idle =>
      cases calls with
      | nil => cases h
      | cons op calls => cases op <;> cases h <;> rfl
  | enqueue v p =>
      simp only [worker, Option.map_eq_some_iff, Prod.mk.injEq, Prod.exists] at h
      obtain ⟨q', k, hk, rfl, rfl⟩ := h
      cases p with
      | malloc | initValue tmp | initNext tmp | lockTail tmp | storeNext tmp tail =>
          simp only [enqueue, Option.map_eq_some_iff, Prod.mk.injEq] at hk
          obtain ⟨_, -, -, rfl⟩ := hk
          rfl
      | loadTail tmp | storeTail tmp | unlockTail =>
          simp only [enqueue, Option.some.injEq, Prod.mk.injEq] at hk
          obtain ⟨-, rfl⟩ := hk
          rfl
  | dequeue p =>
      simp only [worker, Option.map_eq_some_iff, Prod.mk.injEq, Prod.exists] at h
      obtain ⟨q', k, hk, rfl, rfl⟩ := h
      cases p with
      | lockHead | free current =>
          simp only [dequeue, Option.map_eq_some_iff, Prod.mk.injEq] at hk
          obtain ⟨_, -, -, rfl⟩ := hk
          rfl
      | loadNext current =>
          simp only [dequeue, Option.map_eq_some_iff, Prod.mk.injEq] at hk
          obtain ⟨n, hn, -, rfl⟩ := hk
          cases hnext : n.next <;>
            simp [Worker.event, Queue.link, hn, hnext, Worker.pending, callOf]
      | storeHead current newHead =>
          simp only [dequeue, Option.some.injEq, Prod.mk.injEq] at hk
          obtain ⟨-, rfl⟩ := hk
          have hmem : newHead ∈ q.head :: L :=
            List.mem_cons_of_mem _ (List.mem_of_mem_head? hknows.2)
          obtain ⟨n, hn⟩ := Option.ne_none_iff_exists'.mp (hchain.allocated hmem)
          obtain ⟨n', hn', -⟩ := Option.map_eq_some_iff.mp hn
          simp [Worker.event, hn', Worker.pending, callOf]
      | loadHead | unlockEmpty | unlockHead current =>
          simp only [dequeue, Option.some.injEq, Prod.mk.injEq] at hk
          obtain ⟨-, rfl⟩ := hk
          rfl

variable [DecidableEq ι]

/-! ## The simulation -/

/-- The abstract queue that a state stands for. -/
def Represents (c : Conf ι (Queue ι α) (Worker α)) (vs : List Int) : Prop :=
  ∃ L, Inv L c ∧ c.shared.Holds L vs

theorem simulation (calls : ι → List Op) (d : α) :
    (program calls d).Simulation (fifo Int) fifoEvent Represents where
  init := ⟨[], inv_initial calls d, rfl⟩
  step := by
    rintro m c c' vs ⟨L, hI, hvs⟩ h
    obtain ⟨L', hI', heff⟩ := hI.step h
    obtain ⟨vs', hexec, hvs'⟩ := heff.fifo hvs
    exact ⟨vs', hexec, L', hI', hvs'⟩

/-- The nodes: `d` and the linked ones, in this order, are the unlinked ones and
the chain. -/
theorem nodes_balance (calls : ι → List Op) (d : α) {ls : List (Move ι α)}
    {c : Conf ι (Queue ι α) (Worker α)} (h : (program calls d).Reaches ls c) :
    ∃ L, Inv L c ∧ d :: (program calls d).trace linked ls (initial calls d)
      = (program calls d).trace unlinked ls (initial calls d) ++ c.shared.head :: L := by
  have hbalance := trace_balance (S := program calls d) (p := linked) (q := unlinked)
    (G := fun c x => ∃ L, Inv L c ∧ x = c.shared.head :: L) ?_
    ⟨[], inv_initial calls d, rfl⟩ h
  · obtain ⟨_, ⟨L, hI, rfl⟩, heq⟩ := hbalance
    exact ⟨L, hI, heq⟩
  · rintro m c c' _ ⟨L, hI, rfl⟩ hstep
    obtain ⟨L', hI', heff⟩ := hI.step hstep
    exact ⟨_, ⟨L', hI', rfl⟩, heff.nodes⟩

/-- **Every call is carried out once**, in the order in which its thread makes
them. -/
theorem calls_balance (calls : ι → List Op) (d : α) {ls : List (Move ι α)}
    {c : Conf ι (Queue ι α) (Worker α)} (h : (program calls d).Reaches ls c) (i : ι) :
    calls i = (program calls d).trace (carriedOut i) ls (initial calls d)
      ++ (c.threads i).pending := by
  have hbalance := trace_balance (S := program calls d) (p := fun _ _ => none)
    (q := carriedOut i) (G := fun c x => (∃ L, Inv L c) ∧ x = (c.threads i).pending) ?_
    ⟨⟨[], inv_initial calls d⟩, rfl⟩ h
  · obtain ⟨_, ⟨-, rfl⟩, heq⟩ := hbalance
    rw [trace_none, List.append_nil] at heq
    exact heq
  · rintro m c c' _ ⟨⟨L, hI⟩, rfl⟩ hstep
    obtain ⟨L', hI', -⟩ := hI.step hstep
    refine ⟨_, ⟨⟨L', hI'⟩, rfl⟩, (List.append_nil _).trans ?_⟩
    by_cases hm : m.tid = i
    · rw [carriedOut, if_pos hm, fifoEvent, hm]
      rw [← hm]
      exact worker_pending hI.chain (hI.knows _) (Conf.step_mover hstep)
    · rw [carriedOut, if_neg hm, Conf.step_threads_ne hstep (Ne.symm hm)]
      rfl

/-! ## Memory safety -/

omit [DecidableEq ι] [DecidableEq α] in
/-- The node that the next step of a thread accesses is allocated. -/
theorem Inv.touches_allocated {L : List α} {c : Conf ι (Queue ι α) (Worker α)} (hI : Inv L c)
    {i : ι} {a : α} (ha : (c.threads i).touches = some a) : c.shared.heap a ≠ none := by
  have hknows := hI.knows i
  have howned : ∀ {b}, (c.threads i).owned = some b → c.shared.heap b ≠ none :=
    hknows.owned_allocated
  have hchain : ∀ {b}, b ∈ c.shared.head :: L → c.shared.heap b ≠ none := by
    intro b hb hnone
    refine hI.chain.allocated hb ?_
    rw [Queue.link, hnone]
    rfl
  rcases hw : c.threads i with ⟨pc, calls⟩
  rw [hw] at ha hknows howned
  cases pc with
  | idle => cases ha
  | enqueue v p =>
      cases p with
      | initValue tmp | initNext tmp => cases ha; exact howned rfl
      | storeNext tmp tail =>
          cases ha
          obtain ⟨-, rfl⟩ := hknows
          exact hchain (c.shared.last_mem L)
      | malloc | lockTail tmp | loadTail tmp | storeTail tmp | unlockTail => cases ha
  | dequeue p =>
      cases p with
      | loadNext current =>
          cases ha
          obtain rfl : a = c.shared.head := hknows
          exact hchain (List.mem_cons_self ..)
      | free current => cases ha; exact howned rfl
      | lockHead | loadHead | unlockEmpty | storeHead current newHead | unlockHead current =>
          cases ha

/-- **`queue.c` is an atomic FIFO queue.** Along every run the operations, each
at its moment, are a history of the FIFO list, which at the end is the chain
after `q->head`. So the values unlinked so far, followed by those on the chain,
are the enqueued values in link order; the nodes linked so far, after the
dummy, are the unlinked ones followed by the chain; every call of every thread
is carried out once, in program order; and no thread is about to access, or to
free, a node that is not allocated. -/
theorem queue_refines_fifo (calls : ι → List Op) (d : α) :
    (program calls d).Simulation (fifo Int) fifoEvent Represents
    ∧ ∀ {ls c}, (program calls d).Reaches ls c →
      ∃ (L : List α) (vs : List Int),
        IsChain c.shared.link (c.shared.head :: L)
        ∧ c.shared.Holds L vs
        ∧ (fifo Int).Reaches ((program calls d).trace fifoEvent ls (initial calls d)) vs
        ∧ ((program calls d).trace fifoEvent ls (initial calls d)).filterMap FifoEvent.enqueued
          = ((program calls d).trace fifoEvent ls (initial calls d)).filterMap
              FifoEvent.dequeued ++ vs
        ∧ d :: (program calls d).trace linked ls (initial calls d)
          = (program calls d).trace unlinked ls (initial calls d) ++ c.shared.head :: L
        ∧ (∀ i, calls i = (program calls d).trace (carriedOut i) ls (initial calls d)
          ++ (c.threads i).pending)
        ∧ (∀ i a, (c.threads i).touches = some a → c.shared.heap a ≠ none) := by
  refine ⟨simulation calls d, fun {ls c} h => ?_⟩
  obtain ⟨vs, hfifo, L, hI, hvs⟩ := (simulation calls d).reaches h
  obtain ⟨L', hI', hnodes⟩ := nodes_balance calls d h
  have hL : L = L' := (List.cons.inj (hI.chain.unique hI'.chain rfl)).2
  subst hL
  exact ⟨L, vs, hI.chain, hvs, hfifo, fifo_balance hfifo, hnodes, calls_balance calls d h,
    fun i a => hI.touches_allocated⟩

/-- Thread `0` has linked its node but not yet set `q->tail` when thread `1`
dequeues that value and frees the node that `q->tail` still names. -/
theorem queue_refines_fifo_window :
    ∃ (ls : List (Move (Fin 2) Nat)) (c : Conf (Fin 2) (Queue (Fin 2) Nat) (Worker Nat))
      (L : List Nat),
      (program (fun i => if i = 0 then [.enqueue 7] else [.dequeue]) 0).Reaches ls c
      ∧ (c.threads 0).pc = .enqueue 7 (.storeTail 1)
      ∧ c.shared.heap c.shared.tail = none
      ∧ IsChain c.shared.link (c.shared.head :: L)
      ∧ 0 :: (program (fun i => if i = 0 then [.enqueue 7] else [.dequeue]) 0).trace linked ls
          (initial (fun i => if i = 0 then [.enqueue 7] else [.dequeue]) 0)
        = (program (fun i => if i = 0 then [.enqueue 7] else [.dequeue]) 0).trace unlinked ls
          (initial (fun i => if i = 0 then [.enqueue 7] else [.dequeue]) 0)
          ++ c.shared.head :: L := by
  let move (i : Fin 2) : Move (Fin 2) Nat := ⟨i, 1, ⟨0, none⟩⟩
  obtain ⟨c, hrun, hc⟩ := Option.any_eq_true _ _ |>.mp
    (show (((program (fun i => if i = 0 then [.enqueue 7] else [.dequeue]) 0).exec
        (List.replicate 7 (move 0) ++ List.replicate 7 (move 1))
        (initial (fun i => if i = 0 then [.enqueue 7] else [.dequeue]) 0)).any fun c =>
      (c.threads 0).pc = .enqueue 7 (.storeTail 1)
        ∧ c.shared.heap c.shared.tail = none) = true by decide +kernel)
  obtain ⟨hpc, hdangling⟩ := of_decide_eq_true hc
  obtain ⟨L, vs, hchain, -, -, -, hnodes, -⟩ := (queue_refines_fifo _ 0).2 hrun
  exact ⟨_, c, L, hrun, hpc, hdangling, hchain, hnodes⟩

end CAdvanced.TwoLockQueue
