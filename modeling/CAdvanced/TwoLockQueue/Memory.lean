import CAdvanced.Interleave.Termination
import CAdvanced.TwoLockQueue.Refinement
import Mathlib.Data.Set.Finite.Lattice

/-!
# TwoLockQueue — Memory

No node of `queue.c` is lost: every allocated node is on the chain from `q->head` or in
the hands of the one thread that has just made it or is about to free it. And no run
gets stuck: whoever has calls left can move, unless it waits for a lock, whose holder
waits for nothing; in particular no step reads or writes a node that is not there. So
every run ends, and when it does the nodes that are left are those of the queue.
-/

namespace CAdvanced.TwoLockQueue

open Interleave System Heap

variable {ι α : Type}

/-! ## No node is lost -/

section Step
variable [DecidableEq α] {i : ι} {m : Malloc α} {q q' : Queue ι α} {w w' : Worker α}

/-- What is new in memory belongs to the one who has allocated it. -/
theorem worker_allocates {a : α} (h : worker i m q w = some (q', w')) (ha : q'.heap a ≠ none) :
    q.heap a ≠ none ∨ w'.owned = some a := by
  obtain ⟨pc, calls⟩ := w
  cases pc with
  | idle =>
      cases calls with
      | nil => cases h
      | cons op calls => cases op <;> cases h <;> exact .inl ha
  | enqueue v p =>
      simp only [worker, Option.map_eq_some_iff, Prod.mk.injEq, Prod.exists] at h
      obtain ⟨q', k, hk, rfl, rfl⟩ := h
      cases p with
      | malloc =>
          simp only [enqueue, Queue.malloc, Option.map_eq_some_iff, Prod.mk.injEq,
            Option.ite_none_right_eq_some, Option.some.injEq] at hk
          obtain ⟨q₁, ⟨hfree, rfl⟩, rfl, rfl⟩ := hk
          by_cases ham : a = m.addr
          · subst ham
            exact .inr rfl
          · exact .inl fun hnone => ha ((Function.update_of_ne ham _ _).trans hnone)
      | initValue tmp | initNext tmp | storeNext tmp tail =>
          simp only [enqueue, Queue.store, Option.map_eq_some_iff, Prod.mk.injEq] at hk
          obtain ⟨q₁, ⟨n, hn, rfl⟩, rfl, rfl⟩ := hk
          left
          intro hnone
          refine ha ((Function.update_of_ne ?_ _ _).trans hnone)
          rintro rfl
          rw [hnone] at hn
          cases hn
      | lockTail tmp =>
          simp only [enqueue, Option.map_eq_some_iff, Prod.mk.injEq] at hk
          obtain ⟨l, -, rfl, rfl⟩ := hk
          exact .inl ha
      | loadTail tmp | storeTail tmp | unlockTail => cases hk; exact .inl ha
  | dequeue p =>
      simp only [worker, Option.map_eq_some_iff, Prod.mk.injEq, Prod.exists] at h
      obtain ⟨q', k, hk, rfl, rfl⟩ := h
      cases p with
      | free current =>
          simp only [dequeue, Queue.free, Option.map_eq_some_iff, Prod.mk.injEq] at hk
          obtain ⟨q₁, ⟨n, hn, rfl⟩, rfl, rfl⟩ := hk
          left
          intro hnone
          refine ha ((Function.update_of_ne ?_ _ _).trans hnone)
          rintro rfl
          rw [hnone] at hn
          cases hn
      | lockHead | loadNext current =>
          simp only [dequeue, Option.map_eq_some_iff, Prod.mk.injEq] at hk
          obtain ⟨l, -, rfl, rfl⟩ := hk
          exact .inl ha
      | loadHead | unlockEmpty | storeHead current newHead | unlockHead current =>
          cases hk
          exact .inl ha

/-- A node of one's own is kept, linked into the chain, or freed. -/
theorem worker_disposes {a : α} (h : worker i m q w = some (q', w')) (ha : w.owned = some a) :
    w'.owned = some a ∨ w.links = some a ∨ q'.heap a = none := by
  obtain ⟨pc, calls⟩ := w
  cases pc with
  | idle => cases ha
  | enqueue v p =>
      simp only [worker, Option.map_eq_some_iff, Prod.mk.injEq, Prod.exists] at h
      obtain ⟨q', k, hk, rfl, rfl⟩ := h
      cases p with
      | initValue tmp | initNext tmp | lockTail tmp =>
          cases ha
          simp only [enqueue, Option.map_eq_some_iff, Prod.mk.injEq] at hk
          obtain ⟨q₁, -, rfl, rfl⟩ := hk
          exact .inl rfl
      | loadTail tmp =>
          cases ha
          cases hk
          exact .inl rfl
      | storeNext tmp tail =>
          cases ha
          exact .inr (.inl rfl)
      | malloc | storeTail tmp | unlockTail => cases ha
  | dequeue p =>
      simp only [worker, Option.map_eq_some_iff, Prod.mk.injEq, Prod.exists] at h
      obtain ⟨q', k, hk, rfl, rfl⟩ := h
      cases p with
      | unlockHead current =>
          cases ha
          cases hk
          exact .inl rfl
      | free current =>
          cases ha
          simp only [dequeue, Queue.free, Option.map_eq_some_iff, Prod.mk.injEq] at hk
          obtain ⟨q₁, ⟨n, -, rfl⟩, rfl, rfl⟩ := hk
          exact .inr (.inr (Function.update_self _ _ _))
      | lockHead | loadHead | loadNext current | unlockEmpty | storeHead current newHead =>
          cases ha

/-- Who takes a node off the chain has it in hand. -/
theorem worker_unlinks {a : α} (h : worker i m q w = some (q', w')) (ha : w.unlinks = some a) :
    w'.owned = some a := by
  obtain ⟨pc, calls⟩ := w
  cases pc with
  | idle => cases ha
  | enqueue v p => cases p <;> cases ha
  | dequeue p =>
      cases p with
      | storeHead current newHead =>
          cases ha
          cases h
          rfl
      | lockHead | loadHead | loadNext current | unlockEmpty | unlockHead current
      | free current => cases ha

end Step

/-- What was on the chain, or is linked in, is on the new chain, unless it is taken off. -/
theorem Effect.stays {q q' : Queue ι α} {L L' : List α} {w : Worker α} {a : α}
    (h : Effect q q' L L' w) (ha : a ∈ q.head :: L ∨ w.links = some a) :
    w.unlinks = some a ∨ a ∈ q'.head :: L' := by
  have hmem : a ∈ q.head :: L ++ w.links.toList :=
    List.mem_append.mpr (ha.imp_right Option.mem_toList.mpr)
  rw [h.nodes] at hmem
  exact (List.mem_append.mp hmem).imp_left Option.mem_toList.mp

/-- **No leak**: an allocated node is on the chain or in the hands of a thread. -/
def Reached (L : List α) (c : Conf ι (Queue ι α) (Worker α)) : Prop :=
  ∀ a, c.shared.heap a ≠ none → a ∈ c.shared.head :: L ∨ ∃ i, (c.threads i).owned = some a

section Run
variable [DecidableEq ι] [DecidableEq α] {calls : ι → List Op} {d : α}
  {c c' : Conf ι (Queue ι α) (Worker α)} {L : List α}

omit [DecidableEq ι] in
theorem reached_initial : Reached [] (initial calls d) := by
  intro a ha
  by_cases had : a = d
  · rw [had]
    exact .inl (List.mem_singleton_self _)
  · exact absurd (Function.update_of_ne had _ fun _ => none) ha

theorem Reached.step {L' : List α} {i : ι} {m : Malloc α} (hR : Reached L c)
    (h : c.step (worker i m) i = some c')
    (heff : Effect c.shared c'.shared L L' (c.threads i)) : Reached L' c' := by
  intro a ha
  have hmover := Conf.step_mover h
  have hstays : a ∈ c.shared.head :: L ∨ (c.threads i).links = some a →
      a ∈ c'.shared.head :: L' ∨ ∃ j, (c'.threads j).owned = some a := by
    intro hon
    rcases heff.stays hon with hoff | hmem
    · exact .inr ⟨i, worker_unlinks hmover hoff⟩
    · exact .inl hmem
  rcases worker_allocates hmover ha with hold | hnew
  · rcases hR a hold with hchain | ⟨j, hj⟩
    · exact hstays (.inl hchain)
    · by_cases hji : j = i
      · subst hji
        rcases worker_disposes hmover hj with hkeep | hlinks | hfreed
        · exact .inr ⟨j, hkeep⟩
        · exact hstays (.inr hlinks)
        · exact absurd hfreed ha
      · exact .inr ⟨j, by rw [Conf.step_threads_ne h hji]; exact hj⟩
  · exact .inr ⟨i, hnew⟩

/-- The invariant, and no leak. -/
theorem memory_inductive (calls : ι → List Op) (d : α) :
    (program calls d).Inductive fun c => ∃ L, Inv L c ∧ Reached L c where
  init := ⟨[], inv_initial calls d, reached_initial⟩
  step := by
    rintro m c c' ⟨L, hI, hR⟩ h
    obtain ⟨L', hI', heff⟩ := hI.step h
    exact ⟨L', hI', hR.step h heff⟩

omit [DecidableEq ι] [DecidableEq α] in
/-- There is always a node to be had: the chain and the threads hold finitely many. -/
theorem Reached.exists_free [Finite ι] [Infinite α] (hR : Reached L c) :
    ∃ a, c.shared.heap a = none := by
  have hfinite : {a | c.shared.heap a ≠ none}.Finite := by
    have howned := (Set.finite_range fun i => (c.threads i).owned).preimage
      (Option.some_injective α).injOn
    refine ((List.finite_toSet (c.shared.head :: L)).union howned).subset ?_
    intro a ha
    exact hR a ha
  obtain ⟨a, ha⟩ := hfinite.exists_notMem
  exact ⟨a, not_not.mp ha⟩

end Run
end CAdvanced.TwoLockQueue
