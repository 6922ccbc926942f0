import CAdvanced.Heap.Chain
import CAdvanced.LinkedList.Model

/-!
# LinkedList — Knowledge

What a thread knows by its local variables. The chain from `list->head` only
grows, at its end, by the thread that holds the lock of its last node. A thread
on its way knows the node it stands at by the lock it holds there, and knows that
a link it has read stays: only a NULL is ever overwritten, and only by the holder
of the node's lock. A node and a mutex that are allocated and not yet part of the
list belong to one thread.
-/

namespace CAdvanced.LinkedList

open Interleave Heap

variable {ι α : Type}

/-! ## What a state means -/

/-- The `next` field at an address. -/
def NodeList.link (s : NodeList ι α) (a : α) : Option (Option α) := (s.nodes a).map Node.next

/-- The `value` field at an address. -/
def NodeList.valueAt (s : NodeList ι α) (a : α) : Option Int := (s.nodes a).map Node.value

/-- The `lock` field at an address. -/
def NodeList.lockAt (s : NodeList ι α) (a : α) : Option α := (s.nodes a).map Node.lock

/-- The mutex of a node. -/
def NodeList.mutexOf (s : NodeList ι α) (a : α) : Option (Mutex ι) :=
  (s.lockAt a).bind s.mutexes

/-! ## Places -/

/-- The nodes whose lock a thread holds. -/
def Worker.held : Worker α → List α
  | ⟨.addToList _ (.testNext current), _⟩ | ⟨.addToList _ (.whileNext current), _⟩
  | ⟨.addToList _ (.loadNext current), _⟩ | ⟨.addToList _ (.loadNextArg current), _⟩
  | ⟨.addToList _ (.create current _ _), _⟩ | ⟨.addToList _ (.storeNext current _), _⟩
  | ⟨.addToList _ (.loadLockLast current), _⟩ | ⟨.addToList _ (.unlockLast current _), _⟩ =>
      [current]
  | ⟨.addToList _ (.loadLockNext previous _), _⟩ | ⟨.addToList _ (.lockNext previous _ _), _⟩ =>
      [previous]
  | ⟨.addToList _ (.loadLockPrevious previous current), _⟩
  | ⟨.addToList _ (.unlockPrevious previous current _), _⟩ => [previous, current]
  | _ => []

/-- The node at which a thread stands with its value, from the lock of the head
node to the link of the new one. -/
def Worker.waits : Worker α → Option (α × Int)
  | ⟨.addToList v (.testNext current), _⟩ | ⟨.addToList v (.whileNext current), _⟩
  | ⟨.addToList v (.loadNext current), _⟩ | ⟨.addToList v (.loadNextArg current), _⟩
  | ⟨.addToList v (.create current _ _), _⟩ | ⟨.addToList v (.storeNext current _), _⟩
  | ⟨.addToList v (.loadLockPrevious _ current), _⟩
  | ⟨.addToList v (.unlockPrevious _ current _), _⟩ => some (current, v)
  | ⟨.addToList v (.loadLockNext previous _), _⟩
  | ⟨.addToList v (.lockNext previous _ _), _⟩ => some (previous, v)
  | _ => none

/-- The node that is the thread's own: allocated and not yet linked. -/
def Worker.ownedNode : Worker α → Option α
  | ⟨.addToList _ (.create _ _ (.mallocLock n)), _⟩
  | ⟨.addToList _ (.create _ _ (.storeLock n _)), _⟩
  | ⟨.addToList _ (.create _ _ (.loadLock n)), _⟩
  | ⟨.addToList _ (.create _ _ (.initLock n _)), _⟩
  | ⟨.addToList _ (.create _ _ (.storeValue n)), _⟩
  | ⟨.addToList _ (.create _ _ (.storeNext n)), _⟩
  | ⟨.addToList _ (.storeNext _ n), _⟩ => some n
  | _ => none

/-- The mutex that is the thread's own: that of its own node, once it has one. -/
def Worker.ownedLock (s : NodeList ι α) : Worker α → Option α
  | ⟨.addToList _ (.create _ _ (.storeLock _ l)), _⟩ => some l
  | ⟨.addToList _ (.create _ _ (.loadLock n)), _⟩
  | ⟨.addToList _ (.create _ _ (.initLock n _)), _⟩
  | ⟨.addToList _ (.create _ _ (.storeValue n)), _⟩
  | ⟨.addToList _ (.create _ _ (.storeNext n)), _⟩
  | ⟨.addToList _ (.storeNext _ n), _⟩ => s.lockAt n
  | _ => none

/-! ## What a thread knows -/

/-- The state of the node under construction. -/
def InitNode.Knows (s : NodeList ι α) (v : Int) : InitNode α → Prop
  | .malloc => True
  | .mallocLock n => s.nodes n ≠ none
  | .storeLock n l => s.nodes n ≠ none ∧ s.mutexes l ≠ none
  | .loadLock n => ∃ x, s.nodes n = some x ∧ s.mutexes x.lock ≠ none
  | .initLock n l => ∃ x, s.nodes n = some x ∧ s.mutexes x.lock ≠ none ∧ x.lock = l
  | .storeValue n => ∃ x, s.nodes n = some x ∧ s.mutexes x.lock = some none
  | .storeNext n => ∃ x, s.nodes n = some x ∧ s.mutexes x.lock = some none ∧ x.value = v

/-- What the thread's local variables say about the list with the chain `L`. -/
def AddToList.Knows (s : NodeList ι α) (L : List α) (v : Int) : AddToList α → Prop
  | .loadHead => True
  | .loadLock current => current = s.head
  | .lock current l => current = s.head ∧ s.lockAt current = some l
  | .testNext current | .whileNext current | .loadLockLast current => current ∈ L
  | .loadNext current => current ∈ L ∧ ∃ b, s.link current = some (some b)
  | .loadLockNext previous current | .loadLockPrevious previous current =>
      previous ∈ L ∧ current ∈ L ∧ s.link previous = some (some current)
  | .lockNext previous current l =>
      previous ∈ L ∧ current ∈ L ∧ s.link previous = some (some current)
        ∧ s.lockAt current = some l
  | .unlockPrevious previous current l =>
      previous ∈ L ∧ current ∈ L ∧ s.link previous = some (some current)
        ∧ s.lockAt previous = some l
  | .loadNextArg current => current ∈ L ∧ s.link current = some none
  | .create current next p => current ∈ L ∧ s.link current = some none ∧ next = none ∧ p.Knows s v
  | .storeNext current n => current ∈ L ∧ s.link current = some none
      ∧ ∃ x, s.nodes n = some x ∧ s.mutexes x.lock = some none ∧ x.value = v ∧ x.next = none
  | .unlockLast current l => current ∈ L ∧ s.lockAt current = some l

def Worker.Knows (s : NodeList ι α) (L : List α) : Worker α → Prop
  | ⟨.idle, _⟩ => True
  | ⟨.addToList v p, _⟩ => p.Knows s L v

theorem Worker.Knows.held_mem {s : NodeList ι α} {L : List α} {w : Worker α} {a : α}
    (h : w.Knows s L) (ha : a ∈ w.held) : a ∈ L := by
  obtain ⟨pc, values⟩ := w
  cases pc with
  | idle => cases ha
  | addToList v p =>
      cases p with
      | testNext current | whileNext current | loadLockLast current =>
          obtain rfl := List.mem_singleton.mp ha
          exact h
      | loadNext current | loadNextArg current | create current next p
      | storeNext current n | unlockLast current l | loadLockNext previous current
      | lockNext previous current l =>
          obtain rfl := List.mem_singleton.mp ha
          exact h.1
      | loadLockPrevious previous current | unlockPrevious previous current l =>
          rcases List.mem_pair.mp ha with rfl | rfl
          · exact h.1
          · exact h.2.1
      | loadHead | loadLock current | lock current l => cases ha

theorem Worker.held_of_waits {w : Worker α} {a : α} {v : Int} (h : w.waits = some (a, v)) :
    a ∈ w.held := by
  obtain ⟨pc, values⟩ := w
  cases pc with
  | idle => cases h
  | addToList v p => cases p <;> cases h <;> simp [Worker.held]

theorem Worker.Knows.node_allocated {s : NodeList ι α} {L : List α} {w : Worker α} {a : α}
    (h : w.Knows s L) (ha : w.ownedNode = some a) : s.nodes a ≠ none := by
  have hsome : ∀ {b : α} {P : Node α → Prop}, (∃ x, s.nodes b = some x ∧ P x) →
      s.nodes b ≠ none := by
    rintro b P ⟨x, hx, -⟩
    rw [hx]
    exact Option.some_ne_none x
  obtain ⟨pc, values⟩ := w
  cases pc with
  | idle => cases ha
  | addToList v p =>
      cases p with
      | create current next p =>
          obtain ⟨-, -, -, hp⟩ := h
          cases p with
          | malloc => cases ha
          | mallocLock n => cases ha; exact hp
          | storeLock n l => cases ha; exact hp.1
          | loadLock n | initLock n l | storeValue n | storeNext n =>
              cases ha
              exact hsome hp
      | storeNext current n =>
          cases ha
          exact hsome h.2.2
      | _ => cases ha

theorem Worker.Knows.lock_allocated {s : NodeList ι α} {L : List α} {w : Worker α} {l : α}
    (h : w.Knows s L) (hl : w.ownedLock s = some l) : s.mutexes l ≠ none := by
  have hsome : ∀ {b : α} {x : Node α}, s.nodes b = some x → s.lockAt b = some l →
      x.lock = l := by
    intro b x hx hb
    rw [NodeList.lockAt, hx] at hb
    exact Option.some.inj hb
  obtain ⟨pc, values⟩ := w
  cases pc with
  | idle => cases hl
  | addToList v p =>
      cases p with
      | create current next p =>
          obtain ⟨-, -, -, hp⟩ := h
          cases p with
          | malloc | mallocLock n => cases hl
          | storeLock n l => cases hl; exact hp.2
          | loadLock n =>
              obtain ⟨x, hx, hm⟩ := hp
              exact hsome hx hl ▸ hm
          | initLock n l =>
              obtain ⟨x, hx, hm, -⟩ := hp
              exact hsome hx hl ▸ hm
          | storeValue n =>
              obtain ⟨x, hx, hm⟩ := hp
              rw [← hsome hx hl, hm]
              exact Option.some_ne_none _
          | storeNext n =>
              obtain ⟨x, hx, hm, -⟩ := hp
              rw [← hsome hx hl, hm]
              exact Option.some_ne_none _
      | storeNext current n =>
          obtain ⟨-, -, x, hx, hm, -⟩ := h
          rw [← hsome hx hl, hm]
          exact Option.some_ne_none _
      | _ => cases hl

theorem NodeList.lockAt_of_node {s : NodeList ι α} {a : α} {x : Node α}
    (h : s.nodes a = some x) : s.lockAt a = some x.lock := by
  rw [NodeList.lockAt, h]
  rfl

theorem NodeList.mutexOf_of_lockAt {s : NodeList ι α} {a l : α} (h : s.lockAt a = some l) :
    s.mutexOf a = s.mutexes l := by
  rw [NodeList.mutexOf, h, Option.bind_some]

/-- A fact about a node under construction and its mutex stays as long as both
do. -/
theorem exists_node_frame {s s' : NodeList ι α} {n : α}
    {P : Node α → Option (Mutex ι) → Prop} (h : ∃ x, s.nodes n = some x ∧ P x (s.mutexes x.lock))
    (hnode : s'.nodes n = s.nodes n)
    (hmutex : ∀ l, s.lockAt n = some l → s'.mutexes l = s.mutexes l) :
    ∃ x, s'.nodes n = some x ∧ P x (s'.mutexes x.lock) := by
  obtain ⟨x, hx, hP⟩ := h
  refine ⟨x, hnode.trans hx, ?_⟩
  rw [hmutex x.lock (NodeList.lockAt_of_node hx)]
  exact hP

/-- What is the same for the other threads after a step: the chain is still
there, its nodes keep their locks and the links they have, and the own node and
the own mutex of the thread `w` are untouched. -/
structure Untouched (s s' : NodeList ι α) (L L' : List α) (w : Worker α) : Prop where
  head : s'.head = s.head
  mem : ∀ {a}, a ∈ L → a ∈ L'
  lockAt : ∀ {a}, a ∈ L → s'.lockAt a = s.lockAt a
  link : ∀ {a b}, a ∈ L → s.link a = some (some b) → s'.link a = some (some b)
  null : ∀ {a}, a ∈ w.held → s.link a = some none → s'.link a = some none
  node : ∀ {a}, w.ownedNode = some a → s'.nodes a = s.nodes a
  mutex : ∀ {l}, w.ownedLock s = some l → s'.mutexes l = s.mutexes l

theorem Worker.Knows.frame {s s' : NodeList ι α} {L L' : List α} {w : Worker α}
    (h : w.Knows s L) (hhead : s.head ∈ L) (hu : Untouched s s' L L' w) : w.Knows s' L' := by
  obtain ⟨pc, values⟩ := w
  cases pc with
  | idle => exact True.intro
  | addToList v p =>
      cases p with
      | loadHead => exact True.intro
      | loadLock current => exact h.trans hu.head.symm
      | lock current l =>
          obtain ⟨rfl, hl⟩ := h
          exact ⟨hu.head.symm, (hu.lockAt hhead).trans hl⟩
      | testNext current | whileNext current | loadLockLast current => exact hu.mem h
      | loadNext current =>
          obtain ⟨hmem, b, hb⟩ := h
          exact ⟨hu.mem hmem, b, hu.link hmem hb⟩
      | loadLockNext previous current | loadLockPrevious previous current =>
          obtain ⟨hp, hc, hlink⟩ := h
          exact ⟨hu.mem hp, hu.mem hc, hu.link hp hlink⟩
      | lockNext previous current l =>
          obtain ⟨hp, hc, hlink, hl⟩ := h
          exact ⟨hu.mem hp, hu.mem hc, hu.link hp hlink, (hu.lockAt hc).trans hl⟩
      | unlockPrevious previous current l =>
          obtain ⟨hp, hc, hlink, hl⟩ := h
          exact ⟨hu.mem hp, hu.mem hc, hu.link hp hlink, (hu.lockAt hp).trans hl⟩
      | loadNextArg current =>
          obtain ⟨hmem, hnull⟩ := h
          exact ⟨hu.mem hmem, hu.null (List.mem_singleton_self _) hnull⟩
      | create current next p =>
          obtain ⟨hmem, hnull, hnext, hp⟩ := h
          refine ⟨hu.mem hmem, hu.null (List.mem_singleton_self _) hnull, hnext, ?_⟩
          cases p with
          | malloc => exact True.intro
          | mallocLock n =>
              rw [InitNode.Knows, hu.node rfl]
              exact hp
          | storeLock n l =>
              rw [InitNode.Knows, hu.node rfl, hu.mutex rfl]
              exact hp
          | loadLock n =>
              exact exists_node_frame (P := fun _ m => m ≠ none) hp (hu.node rfl)
                fun _ => hu.mutex
          | initLock n l =>
              exact exists_node_frame (P := fun x m => m ≠ none ∧ x.lock = l) hp (hu.node rfl)
                fun _ => hu.mutex
          | storeValue n =>
              exact exists_node_frame (P := fun _ m => m = some none) hp (hu.node rfl)
                fun _ => hu.mutex
          | storeNext n =>
              exact exists_node_frame (P := fun x m => m = some none ∧ x.value = v) hp
                (hu.node rfl) fun _ => hu.mutex
      | storeNext current n =>
          obtain ⟨hmem, hnull, hn⟩ := h
          exact ⟨hu.mem hmem, hu.null (List.mem_singleton_self _) hnull,
            exists_node_frame (P := fun x m => m = some none ∧ x.value = v ∧ x.next = none) hn
              (hu.node rfl) fun _ => hu.mutex⟩
      | unlockLast current l =>
          obtain ⟨hmem, hl⟩ := h
          exact ⟨hu.mem hmem, (hu.lockAt hmem).trans hl⟩

end CAdvanced.LinkedList
