import CAdvanced.Heap.Chain
import CAdvanced.Interleave.Fifo
import CAdvanced.TwoLockQueue.Model

/-!
# TwoLockQueue — Invariant

The two ends of the queue are guarded by two locks, and the memory ties them
together. What a state means is the chain `q->head :: L` of its nodes. The
holder of `taillock` knows the last node of the chain, and `q->tail` is that
node except between the two writes of an enqueue: there only the enqueuer's own
`tmp` is known to be the last one, and the node `q->tail` still names may
already be freed, and given out again. Each node that is not on the chain and
not free belongs to the one thread that works on it (`owned`).
-/

namespace CAdvanced.TwoLockQueue

open Interleave Heap

variable {ι α : Type}

/-! ## What a state means -/

/-- The `next` field at an address. -/
def Queue.link (q : Queue ι α) (a : α) : Option (Option α) := (q.heap a).map Node.next

/-- The last node of the chain `q->head :: L`. -/
def Queue.last (q : Queue ι α) (L : List α) : α := L.getLastD q.head

/-- The nodes `L` carry the values `vs`. -/
def Queue.Holds (q : Queue ι α) (L : List α) (vs : List Int) : Prop :=
  L.map (fun a => (q.heap a).map Node.value) = vs.map some

theorem Queue.getLast?_chain (q : Queue ι α) (L : List α) :
    (q.head :: L).getLast? = some (q.last L) := by
  rw [List.getLast?_cons, Queue.last, List.getLastD_eq_getLast?]

theorem Queue.last_mem (q : Queue ι α) (L : List α) : q.last L ∈ q.head :: L :=
  List.mem_of_getLast? (q.getLast?_chain L)

/-! ## What a thread knows -/

/-- Between taking and giving back `taillock`. -/
def Worker.inTail : Worker α → Bool
  | ⟨.enqueue _ (.loadTail _), _⟩ | ⟨.enqueue _ (.storeNext _ _), _⟩
  | ⟨.enqueue _ (.storeTail _), _⟩ | ⟨.enqueue _ .unlockTail, _⟩ => true
  | _ => false

/-- Between taking and giving back `headlock`. -/
def Worker.inHead : Worker α → Bool
  | ⟨.dequeue .lockHead, _⟩ | ⟨.dequeue (.free _), _⟩ => false
  | ⟨.dequeue _, _⟩ => true
  | _ => false

/-- The node that is the thread's own: allocated and not yet linked, or
unlinked and not yet freed. -/
def Worker.owned : Worker α → Option α
  | ⟨.enqueue _ (.initValue tmp), _⟩ | ⟨.enqueue _ (.initNext tmp), _⟩
  | ⟨.enqueue _ (.lockTail tmp), _⟩ | ⟨.enqueue _ (.loadTail tmp), _⟩
  | ⟨.enqueue _ (.storeNext tmp _), _⟩ => some tmp
  | ⟨.dequeue (.unlockHead current), _⟩ | ⟨.dequeue (.free current), _⟩ => some current
  | _ => none

/-- The node whose fields the next step reads or writes, or that it frees. -/
def Worker.touches : Worker α → Option α
  | ⟨.enqueue _ (.initValue tmp), _⟩ | ⟨.enqueue _ (.initNext tmp), _⟩ => some tmp
  | ⟨.enqueue _ (.storeNext _ tail), _⟩ => some tail
  | ⟨.dequeue (.loadNext current), _⟩ | ⟨.dequeue (.free current), _⟩ => some current
  | _ => none

/-- What the thread's local variables say about the queue with the chain
`q->head :: L`. -/
def Worker.Knows (q : Queue ι α) (L : List α) : Worker α → Prop
  | ⟨.enqueue _ (.initValue tmp), _⟩ => q.heap tmp ≠ none
  | ⟨.enqueue v (.initNext tmp), _⟩ => ∃ n, q.heap tmp = some n ∧ n.value = v
  | ⟨.enqueue v (.lockTail tmp), _⟩ => q.heap tmp = some ⟨v, none⟩
  | ⟨.enqueue v (.loadTail tmp), _⟩ => q.heap tmp = some ⟨v, none⟩ ∧ q.tail = q.last L
  | ⟨.enqueue v (.storeNext tmp tail), _⟩ => q.heap tmp = some ⟨v, none⟩ ∧ tail = q.last L
  | ⟨.enqueue _ (.storeTail tmp), _⟩ => tmp = q.last L
  | ⟨.enqueue _ .unlockTail, _⟩ => q.tail = q.last L
  | ⟨.dequeue (.loadNext current), _⟩ => current = q.head
  | ⟨.dequeue (.storeHead current newHead), _⟩ => current = q.head ∧ L.head? = some newHead
  | ⟨.dequeue (.unlockHead current), _⟩ | ⟨.dequeue (.free current), _⟩ =>
      q.heap current ≠ none
  | _ => True

theorem Worker.Knows.owned_allocated {q : Queue ι α} {L : List α} {w : Worker α} {a : α}
    (h : w.Knows q L) (ha : w.owned = some a) : q.heap a ≠ none := by
  obtain ⟨pc, calls⟩ := w
  cases pc with
  | idle => cases ha
  | enqueue v p =>
      cases p with
      | initValue tmp => cases ha; exact h
      | initNext tmp =>
          cases ha
          obtain ⟨n, hn, -⟩ := h
          rw [hn]
          exact Option.some_ne_none n
      | lockTail tmp =>
          cases ha
          rw [show q.heap a = _ from h]
          exact Option.some_ne_none _
      | loadTail tmp | storeNext tmp tail =>
          cases ha
          rw [h.1]
          exact Option.some_ne_none _
      | malloc | storeTail tmp | unlockTail => cases ha
  | dequeue p =>
      cases p with
      | unlockHead current | free current => cases ha; exact h
      | lockHead | loadHead | loadNext current | unlockEmpty | storeHead current newHead =>
          cases ha

/-- What a thread knows survives a step of another one that leaves its own node
alone, the last node to the holder of `taillock`, and the first ones to the
holder of `headlock`. -/
theorem Worker.Knows.frame {q q' : Queue ι α} {L L' : List α} {w : Worker α}
    (h : w.Knows q L) (hheap : ∀ a, w.owned = some a → q'.heap a = q.heap a)
    (htail : w.inTail = true → q'.tail = q.tail ∧ q'.last L' = q.last L)
    (hhead : w.inHead = true → q'.head = q.head ∧ ∃ xs, L' = L ++ xs) : w.Knows q' L' := by
  obtain ⟨pc, calls⟩ := w
  cases pc with
  | idle => exact True.intro
  | enqueue v p =>
      cases p with
      | initValue tmp | initNext tmp | lockTail tmp =>
          simp only [Worker.Knows, hheap tmp rfl]
          exact h
      | loadTail tmp | storeNext tmp tail =>
          obtain ⟨ht, hl⟩ := htail rfl
          simp only [Worker.Knows, hheap tmp rfl, ht, hl]
          exact h
      | storeTail tmp | unlockTail =>
          obtain ⟨ht, hl⟩ := htail rfl
          simp only [Worker.Knows, ht, hl]
          exact h
      | malloc => exact True.intro
  | dequeue p =>
      cases p with
      | loadNext current =>
          rw [Worker.Knows, (hhead rfl).1]
          exact h
      | storeHead current newHead =>
          obtain ⟨hq, xs, rfl⟩ := hhead rfl
          refine ⟨h.1.trans hq.symm, ?_⟩
          rw [List.head?_append, h.2]
          rfl
      | unlockHead current | free current =>
          rw [Worker.Knows, hheap current rfl]
          exact h
      | lockHead | loadHead | unlockEmpty => exact True.intro

/-! ## What a step does -/

/-- The operation on the abstract queue that a step carries out: an enqueue
where it sets `tail->next`, a dequeue where it advances `q->head` or reads that
there is nothing. -/
def Worker.event (q : Queue ι α) : Worker α → Option (FifoEvent Int)
  | ⟨.enqueue v (.storeNext _ _), _⟩ => some (.enq v)
  | ⟨.dequeue (.loadNext current), _⟩ =>
      match q.link current with
      | some none => some .deqEmpty
      | _ => none
  | ⟨.dequeue (.storeHead _ newHead), _⟩ => (q.heap newHead).map fun n => .deq n.value
  | _ => none

/-- The node that a step links in. -/
def Worker.links : Worker α → Option α
  | ⟨.enqueue _ (.storeNext tmp _), _⟩ => some tmp
  | _ => none

/-- The node that a step takes off the chain. -/
def Worker.unlinks : Worker α → Option α
  | ⟨.dequeue (.storeHead current _), _⟩ => some current
  | _ => none

/-- The step of `w` takes the queue `q` with the chain `q->head :: L` to `q'`
with the chain `q'->head :: L'`. -/
structure Effect (q q' : Queue ι α) (L L' : List α) (w : Worker α) : Prop where
  chain : IsChain q'.link (q'.head :: L')
  frame : ∀ {a}, a ∉ q.head :: L → w.owned ≠ some a → q.heap a ≠ none →
    q'.heap a = q.heap a
  mem : ∀ {a}, a ∈ q'.head :: L' → a ∈ q.head :: L ∨ w.owned = some a
  last : w.inTail = false → q'.tail = q.tail ∧ q'.last L' = q.last L
  first : w.inHead = false → q'.head = q.head ∧ ∃ xs, L' = L ++ xs
  fifo : ∀ {vs}, q.Holds L vs →
    ∃ vs', (fifo Int).exec (w.event q).toList vs = some vs' ∧ q'.Holds L' vs'
  nodes : q.head :: L ++ w.links.toList = w.unlinks.toList ++ q'.head :: L'

theorem Queue.Holds.congr {q q' : Queue ι α} {L : List α} {vs : List Int} (h : q.Holds L vs)
    (heq : ∀ a ∈ L, q'.heap a = q.heap a) : q'.Holds L vs := by
  rw [Queue.Holds, ← h]
  exact List.map_congr_left fun a ha => by rw [heq a ha]

/-- A step that leaves the ends of the queue and the nodes on the chain alone. -/
theorem Effect.off_chain {q q' : Queue ι α} {L : List α} {w : Worker α}
    (hchain : IsChain q.link (q.head :: L)) (hhead : q'.head = q.head)
    (htail : w.inTail = false → q'.tail = q.tail)
    (hon : ∀ a ∈ q.head :: L, q'.heap a = q.heap a)
    (hoff : ∀ a, w.owned ≠ some a → q.heap a ≠ none → q'.heap a = q.heap a)
    (hevent : ∀ vs, q.Holds L vs → (Interleave.fifo Int).exec (w.event q).toList vs = some vs)
    (hlinks : w.links = none) (hunlinks : w.unlinks = none) : Effect q q' L L w where
  chain := by
    rw [hhead]
    exact hchain.congr fun a ha => by rw [Queue.link, Queue.link, hon a ha]
  frame _ hown hfree := hoff _ hown hfree
  mem ha := .inl (hhead ▸ ha)
  last hw := ⟨htail hw, by rw [Queue.last, Queue.last, hhead]⟩
  first _ := ⟨hhead, [], (List.append_nil L).symm⟩
  fifo hvs := ⟨_, hevent _ hvs, hvs.congr fun a ha => hon a (List.mem_cons_of_mem _ ha)⟩
  nodes := by
    rw [hlinks, hunlinks, hhead]
    exact List.append_nil _

/-- What the step of thread `i` establishes for itself. -/
structure StepSpec (i : ι) (q q' : Queue ι α) (L L' : List α) (w w' : Worker α) : Prop where
  effect : Effect q q' L L' w
  knows : w'.Knows q' L'
  owned : ∀ {a}, w'.owned = some a →
    a ∉ q'.head :: L' ∧ (w.owned = some a ∨ a ∈ q.head :: L ∨ q.heap a = none)
  taillock : Mutex.Moves i q.taillock w.inTail q'.taillock w'.inTail
  headlock : Mutex.Moves i q.headlock w.inHead q'.headlock w'.inHead
  tail : q'.taillock = none → q'.tail = q'.last L'

/-- Of a thread without a node of its own there is nothing to show. -/
theorem owns_nothing {o : Option α} {a : α} {P : Prop} (h : o = none) (ha : o = some a) : P := by
  rw [h] at ha
  cases ha

/-- A step that only takes or gives back a lock, fills a local variable, or sets
`q->tail`. -/
theorem Effect.refl {q q' : Queue ι α} {L : List α} {w : Worker α}
    (hchain : IsChain q.link (q.head :: L)) (hhead : q'.head = q.head)
    (htail : w.inTail = false → q'.tail = q.tail) (hheap : q'.heap = q.heap)
    (hevent : ∀ vs, q.Holds L vs → (Interleave.fifo Int).exec (w.event q).toList vs = some vs)
    (hlinks : w.links = none) (hunlinks : w.unlinks = none) : Effect q q' L L w :=
  .off_chain hchain hhead htail (fun a _ => congrFun hheap a) (fun a _ _ => congrFun hheap a)
    hevent hlinks hunlinks

/-- A step that writes a node of the thread's own, gives one back, or takes a
free one. -/
theorem Effect.own [DecidableEq α] {q : Queue ι α} {L : List α} {w : Worker α} {x : α}
    {n : Option (Node α)} (hchain : IsChain q.link (q.head :: L)) (hout : x ∉ q.head :: L)
    (hx : w.owned = some x ∨ q.heap x = none)
    (hevent : ∀ vs, q.Holds L vs → (Interleave.fifo Int).exec (w.event q).toList vs = some vs)
    (hlinks : w.links = none) (hunlinks : w.unlinks = none) :
    Effect q { q with heap := Function.update q.heap x n } L L w := by
  refine .off_chain hchain rfl (fun _ => rfl) ?_ ?_ hevent hlinks hunlinks
  · intro a ha
    refine Function.update_of_ne ?_ _ _
    rintro rfl
    exact hout ha
  · intro a hown ha
    refine Function.update_of_ne ?_ _ _
    rintro rfl
    exact hx.elim hown ha

/-- **Advancing**: the first node after `q->head` becomes the new one. -/
theorem advance_effect {q : Queue ι α} {b : α} {L : List α} {calls : List Op}
    (hchain : IsChain q.link (q.head :: b :: L)) :
    Effect q { q with head := b } (b :: L) L ⟨.dequeue (.storeHead q.head b), calls⟩ where
  chain := hchain.tail
  frame _ _ _ := rfl
  mem ha := .inl (List.mem_cons_of_mem _ ha)
  last _ := ⟨rfl, (List.getLastD_cons ..).symm⟩
  first h := nomatch h
  fifo := by
    intro vs hvs
    cases vs with
    | nil => cases hvs
    | cons x vs =>
        obtain ⟨hb, hrest⟩ := List.cons.inj hvs
        obtain ⟨n, hn, rfl⟩ := Option.map_eq_some_iff.mp hb
        refine ⟨vs, ?_, hrest⟩
        have hevent : Worker.event q ⟨.dequeue (.storeHead q.head b), calls⟩
            = some (.deq n.value) := by rw [Worker.event, hn]; rfl
        rw [hevent]
        exact System.exec_singleton.trans (fifoStep_deq n.value vs)
  nodes := List.append_nil _

section Step
variable [DecidableEq α] {i : ι} {m : Malloc α} {q q' : Queue ι α} {L : List α}
  {calls : List Op}

/-- What the invariant gives to the thread that moves. -/
structure Ready (i : ι) (q : Queue ι α) (L : List α) (w : Worker α) : Prop where
  chain : IsChain q.link (q.head :: L)
  knows : w.Knows q L
  outside : ∀ {a}, w.owned = some a → a ∉ q.head :: L
  taillock : w.inTail = true ↔ q.taillock = some i
  tail : q.taillock = none → q.tail = q.last L

/-- **Linking**: the new node comes to the end of the chain. -/
theorem link_effect {v : Int} {tmp : α} {n : Node α}
    (hchain : IsChain q.link (q.head :: L)) (hout : tmp ∉ q.head :: L)
    (htmp : q.heap tmp = some ⟨v, none⟩) (hn : q.heap (q.last L) = some n) :
    Effect q { q with heap := Function.update q.heap (q.last L) (some { n with next := some tmp }) }
      L (L ++ [tmp]) ⟨.enqueue v (.storeNext tmp (q.last L)), calls⟩ where
  chain := by
    have hne : tmp ≠ q.last L := fun heq => hout (heq ▸ q.last_mem L)
    refine hchain.snoc (q.getLast?_chain L) hout ?_ ?_ ?_
    · simp [Queue.link]
    · simp [Queue.link, Function.update_of_ne hne, htmp]
    · intro x _ hx
      simp [Queue.link, Function.update_of_ne hx]
  frame := by
    intro a ha _ _
    refine Function.update_of_ne ?_ _ _
    rintro rfl
    exact ha (q.last_mem L)
  mem := by
    intro a ha
    rcases List.mem_append.mp (show a ∈ (q.head :: L) ++ [tmp] from ha) with hold | hnew
    · exact .inl hold
    · exact .inr (congrArg some (List.mem_singleton.mp hnew).symm)
  last h := nomatch h
  first _ := ⟨rfl, [tmp], rfl⟩
  fifo := by
    intro vs hvs
    refine ⟨vs ++ [v], rfl, ?_⟩
    -- the node that is written keeps its value
    have hvalue : ∀ a, (Function.update q.heap (q.last L) (some { n with next := some tmp }) a).map
        Node.value = (q.heap a).map Node.value := by
      intro a
      by_cases ha : a = q.last L
      · subst ha
        rw [Function.update_self, hn]
        rfl
      · rw [Function.update_of_ne ha]
    simp only [Queue.Holds, hvalue, List.map_append, List.map_cons, List.map_nil, htmp,
      Option.map_some]
    exact congrArg (· ++ [some v]) hvs
  nodes := rfl

theorem enqueue_step {v : Int} {p : Enqueue α} {k : Ctl (Enqueue α)}
    (hR : Ready i q L ⟨.enqueue v p, calls⟩) (h : enqueue i m v q p = some (q', k)) :
    ∃ L', StepSpec i q q' L L' ⟨.enqueue v p, calls⟩
      ⟨k.resume (.enqueue v) .idle, calls⟩ := by
  cases p with
  | malloc =>
      simp only [enqueue, Queue.malloc, Option.map_eq_some_iff, Prod.mk.injEq] at h
      obtain ⟨q₁, h₁, rfl, rfl⟩ := h
      split at h₁
      case isFalse => cases h₁
      case isTrue hfree =>
        cases h₁
        have hout : m.addr ∉ q.head :: L := by
          intro hmem
          refine hR.chain.allocated hmem ?_
          rw [Queue.link, hfree]
          rfl
        refine ⟨L, .own hR.chain hout (.inr hfree) (fun _ _ => rfl) rfl rfl, ?_, ?_, .keep,
          .keep, hR.tail⟩
        · simp [Worker.Knows]
        · rintro a ⟨⟩
          exact ⟨hout, .inr (.inr hfree)⟩
  | initValue tmp =>
      simp only [enqueue, Queue.store, Option.map_eq_some_iff, Prod.mk.injEq] at h
      obtain ⟨q₁, ⟨n, hn, rfl⟩, rfl, rfl⟩ := h
      have hout := hR.outside (a := tmp) rfl
      refine ⟨L, .own hR.chain hout (.inl rfl) (fun _ _ => rfl) rfl rfl, ?_, ?_, .keep, .keep,
        hR.tail⟩
      · simp [Worker.Knows]
      · rintro a ⟨⟩
        exact ⟨hout, .inl rfl⟩
  | initNext tmp =>
      simp only [enqueue, Queue.store, Option.map_eq_some_iff, Prod.mk.injEq] at h
      obtain ⟨q₁, ⟨n, hn, rfl⟩, rfl, rfl⟩ := h
      have hout := hR.outside (a := tmp) rfl
      refine ⟨L, .own hR.chain hout (.inl rfl) (fun _ _ => rfl) rfl rfl, ?_, ?_, .keep, .keep,
        hR.tail⟩
      · obtain ⟨n', hn', rfl⟩ := hR.knows
        cases hn.symm.trans hn'
        simp [Worker.Knows]
      · rintro a ⟨⟩
        exact ⟨hout, .inl rfl⟩
  | lockTail tmp =>
      simp only [enqueue, Option.map_eq_some_iff, Mutex.lock_eq_some, Prod.mk.injEq] at h
      obtain ⟨l, ⟨hfree, rfl⟩, rfl, rfl⟩ := h
      refine ⟨L, .refl hR.chain rfl (fun _ => rfl) rfl (fun _ _ => rfl) rfl rfl,
        ⟨hR.knows, hR.tail hfree⟩, fun ha => ⟨hR.outside ha, .inl ha⟩, ?_, .keep, ?_⟩
      · rw [hfree]
        exact .lock
      · intro hnone
        cases hnone
  | loadTail tmp =>
      simp only [enqueue, Option.some.injEq, Prod.mk.injEq] at h
      obtain ⟨rfl, rfl⟩ := h
      exact ⟨L, .refl hR.chain rfl (fun _ => rfl) rfl (fun _ _ => rfl) rfl rfl, hR.knows,
        fun ha => ⟨hR.outside ha, .inl ha⟩, .keep, .keep, hR.tail⟩
  | storeNext tmp tail =>
      simp only [enqueue, Queue.store, Option.map_eq_some_iff, Prod.mk.injEq] at h
      obtain ⟨q₁, ⟨n, hn, rfl⟩, rfl, rfl⟩ := h
      obtain ⟨htmp, rfl⟩ := hR.knows
      refine ⟨L ++ [tmp], link_effect hR.chain (hR.outside rfl) htmp hn, ?_, owns_nothing rfl,
        .keep, .keep, ?_⟩
      · simp [Worker.Knows, Queue.last]
      · intro hfree
        exact absurd (hR.taillock.mp rfl) (by rw [show q.taillock = none from hfree]; simp)
  | storeTail tmp =>
      simp only [enqueue, Option.some.injEq, Prod.mk.injEq] at h
      obtain ⟨rfl, rfl⟩ := h
      exact ⟨L, .refl hR.chain rfl (fun h => by cases h) rfl (fun _ _ => rfl) rfl rfl, hR.knows,
        owns_nothing rfl, .keep, .keep, fun _ => hR.knows⟩
  | unlockTail =>
      simp only [enqueue, Option.some.injEq, Prod.mk.injEq] at h
      obtain ⟨rfl, rfl⟩ := h
      exact ⟨L, .refl hR.chain rfl (fun _ => rfl) rfl (fun _ _ => rfl) rfl rfl, True.intro,
        owns_nothing rfl, .unlock, .keep, fun _ => hR.knows⟩

theorem dequeue_step {p : Dequeue α} {k : Ctl (Dequeue α)}
    (hR : Ready i q L ⟨.dequeue p, calls⟩) (h : dequeue i q p = some (q', k)) :
    ∃ L', StepSpec i q q' L L' ⟨.dequeue p, calls⟩ ⟨k.resume .dequeue .idle, calls⟩ := by
  cases p with
  | lockHead =>
      simp only [dequeue, Option.map_eq_some_iff, Mutex.lock_eq_some, Prod.mk.injEq] at h
      obtain ⟨l, ⟨hfree, rfl⟩, rfl, rfl⟩ := h
      refine ⟨L, .refl hR.chain rfl (fun _ => rfl) rfl (fun _ _ => rfl) rfl rfl, True.intro,
        owns_nothing rfl, .keep, ?_, hR.tail⟩
      rw [hfree]
      exact .lock
  | loadHead =>
      simp only [dequeue, Option.some.injEq, Prod.mk.injEq] at h
      obtain ⟨rfl, rfl⟩ := h
      exact ⟨L, .refl hR.chain rfl (fun _ => rfl) rfl (fun _ _ => rfl) rfl rfl, rfl,
        owns_nothing rfl, .keep, .keep, hR.tail⟩
  | loadNext current =>
      simp only [dequeue, Option.map_eq_some_iff, Prod.mk.injEq] at h
      obtain ⟨n, hn, rfl, rfl⟩ := h
      obtain rfl : current = q.head := hR.knows
      have hlink : q.link q.head = some n.next := by rw [Queue.link, hn]; rfl
      have hfirst : n.next = L.head? := Option.some.inj (hlink.symm.trans hR.chain.link_head)
      cases hnext : n.next with
      | none =>
          refine ⟨L, .refl hR.chain rfl (fun _ => rfl) rfl ?_ rfl rfl, True.intro, owns_nothing rfl,
            .keep, .keep, hR.tail⟩
          -- the chain ends at `q->head`, so the abstract queue is empty
          intro vs hvs
          obtain rfl := List.head?_eq_none_iff.mp (hfirst.symm.trans hnext)
          obtain rfl := List.map_eq_nil_iff.mp hvs.symm
          rw [Worker.event, hlink, hnext]
          rfl
      | some newHead =>
          refine ⟨L, .refl hR.chain rfl (fun _ => rfl) rfl ?_ rfl rfl, ?_, owns_nothing rfl, .keep,
            .keep, hR.tail⟩
          · intro vs _
            rw [Worker.event, hlink, hnext]
            rfl
          · exact ⟨rfl, hfirst.symm.trans hnext⟩
  | unlockEmpty =>
      simp only [dequeue, Option.some.injEq, Prod.mk.injEq] at h
      obtain ⟨rfl, rfl⟩ := h
      exact ⟨L, .refl hR.chain rfl (fun _ => rfl) rfl (fun _ _ => rfl) rfl rfl, True.intro,
        owns_nothing rfl, .keep, .unlock, hR.tail⟩
  | storeHead current newHead =>
      simp only [dequeue, Option.some.injEq, Prod.mk.injEq] at h
      obtain ⟨rfl, rfl⟩ := h
      obtain ⟨rfl, hfirst⟩ := hR.knows
      obtain ⟨L', rfl⟩ := List.head?_eq_some_iff.mp hfirst
      refine ⟨L', advance_effect hR.chain, ?_, ?_, .keep, .keep, ?_⟩
      · intro hnone
        refine hR.chain.allocated (List.mem_cons_self ..) ?_
        rw [Queue.link, hnone]
        rfl
      · rintro a ⟨⟩
        exact ⟨(List.nodup_cons.mp hR.chain.nodup).1, .inr (.inl (List.mem_cons_self ..))⟩
      · intro hfree
        exact (hR.tail hfree).trans (List.getLastD_cons ..)
  | unlockHead current =>
      simp only [dequeue, Option.some.injEq, Prod.mk.injEq] at h
      obtain ⟨rfl, rfl⟩ := h
      exact ⟨L, .refl hR.chain rfl (fun _ => rfl) rfl (fun _ _ => rfl) rfl rfl, hR.knows,
        fun ha => ⟨hR.outside ha, .inl ha⟩, .keep, .unlock, hR.tail⟩
  | free current =>
      simp only [dequeue, Queue.free, Option.map_eq_some_iff, Prod.mk.injEq] at h
      obtain ⟨q₁, ⟨n, hn, rfl⟩, rfl, rfl⟩ := h
      exact ⟨L, .own hR.chain (hR.outside rfl) (.inl rfl) (fun _ _ => rfl) rfl rfl, True.intro,
        owns_nothing rfl, .keep, .keep, hR.tail⟩

theorem worker_step {w w' : Worker α} (hR : Ready i q L w)
    (h : worker i m q w = some (q', w')) : ∃ L', StepSpec i q q' L L' w w' := by
  obtain ⟨pc, calls⟩ := w
  cases pc with
  | idle =>
      cases calls with
      | nil => cases h
      | cons op calls =>
          cases op <;> cases h <;> exact ⟨L, .refl hR.chain rfl (fun _ => rfl) rfl
            (fun _ _ => rfl) rfl rfl, True.intro, nofun, .keep, .keep, hR.tail⟩
  | enqueue v p =>
      simp only [worker, Option.map_eq_some_iff, Prod.mk.injEq, Prod.exists] at h
      obtain ⟨q', k, hk, rfl, rfl⟩ := h
      exact enqueue_step hR hk
  | dequeue p =>
      simp only [worker, Option.map_eq_some_iff, Prod.mk.injEq, Prod.exists] at h
      obtain ⟨q', k, hk, rfl, rfl⟩ := h
      exact dequeue_step hR hk

end Step

/-! ## The invariant -/

/-- The invariant of the program, for the state with the chain `q->head :: L`. -/
structure Inv (L : List α) (c : Conf ι (Queue ι α) (Worker α)) : Prop where
  chain : IsChain c.shared.link (c.shared.head :: L)
  tail : c.shared.taillock = none → c.shared.tail = c.shared.last L
  taillock : ∀ i, (c.threads i).inTail = true ↔ c.shared.taillock = some i
  headlock : ∀ i, (c.threads i).inHead = true ↔ c.shared.headlock = some i
  knows : ∀ i, (c.threads i).Knows c.shared L
  outside : ∀ {i a}, (c.threads i).owned = some a → a ∉ c.shared.head :: L
  disjoint : ∀ {i j a}, (c.threads i).owned = some a → (c.threads j).owned = some a → i = j

theorem inv_initial [DecidableEq α] (calls : ι → List Op) (d : α) : Inv [] (initial calls d) where
  chain := .singleton (by simp [Queue.link, initial, initQueue])
  tail _ := rfl
  taillock _ := ⟨nofun, nofun⟩
  headlock _ := ⟨nofun, nofun⟩
  knows _ := True.intro
  outside := nofun
  disjoint := nofun

theorem Inv.ready {L : List α} {c : Conf ι (Queue ι α) (Worker α)} (hI : Inv L c) (i : ι) :
    Ready i c.shared L (c.threads i) :=
  ⟨hI.chain, hI.knows i, hI.outside, hI.taillock i, hI.tail⟩

variable [DecidableEq ι] [DecidableEq α]

/-- **One step** keeps the invariant, with the chain that the mover leaves. -/
theorem Inv.step {L : List α} {c c' : Conf ι (Queue ι α) (Worker α)} {i : ι} {m : Malloc α}
    (hI : Inv L c) (h : c.step (worker i m) i = some c') :
    ∃ L', Inv L' c' ∧ Effect c.shared c'.shared L L' (c.threads i) := by
  obtain ⟨L', hspec⟩ := worker_step (hI.ready i) (Conf.step_mover h)
  have heff := hspec.effect
  have hsame := fun {j} (hj : j ≠ i) => Conf.step_threads_ne h hj
  refine ⟨L', ⟨heff.chain, hspec.tail, ?taillock, ?headlock, ?knows, ?outside, ?disjoint⟩, heff⟩
  case taillock =>
    exact hspec.taillock.holder hI.taillock rfl rfl fun j hj => by rw [hsame hj]
  case headlock =>
    exact hspec.headlock.holder hI.headlock rfl rfl fun j hj => by rw [hsame hj]
  case knows =>
    refine Conf.step_forall (A := fun q w => w.Knows q L') h hspec.knows ?_
    intro j hj
    refine (hI.knows j).frame ?_ ?_ ?_
    · intro a ha
      exact heff.frame (hI.outside ha) (fun hi => hj (hI.disjoint ha hi))
        ((hI.knows j).owned_allocated ha)
    · intro hin
      refine heff.last ?_
      rw [← Bool.not_eq_true]
      intro hi
      exact hj (Option.some.inj (((hI.taillock j).mp hin).symm.trans ((hI.taillock i).mp hi)))
    · intro hin
      refine heff.first ?_
      rw [← Bool.not_eq_true]
      intro hi
      exact hj (Option.some.inj (((hI.headlock j).mp hin).symm.trans ((hI.headlock i).mp hi)))
  case outside =>
    intro j a ha hmem
    by_cases hj : j = i
    · subst hj
      exact (hspec.owned ha).1 hmem
    · rw [hsame hj] at ha
      rcases heff.mem hmem with hold | hi
      · exact hI.outside ha hold
      · exact hj (hI.disjoint ha hi)
  case disjoint =>
    refine Conf.step_disjoint (fun _ w => w.owned) h hI.disjoint (fun _ _ => rfl) ?_
    -- what the mover owns now was its own, or on the chain, or free
    intro a ha
    rcases (hspec.owned ha).2 with hown | hon | hfree
    · exact .inl hown
    · exact .inr fun j hj => hI.outside hj hon
    · exact .inr fun j hj => (hI.knows j).owned_allocated hj hfree

end CAdvanced.TwoLockQueue
