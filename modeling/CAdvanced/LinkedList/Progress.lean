import Mathlib.Data.Set.Finite.Basic
import CAdvanced.LinkedList.Invariant

/-!
# LinkedList — Progress

Hand-over-hand locking does not deadlock. A thread holds the lock of one node, or of two
that follow each other while it goes from the first to the second; it only ever waits for
the successor of the node it holds. So from a thread that is stuck the wait leads to one
that stands further down the chain, and the last of these can move.

`malloc` finds memory as long as there is some: only finitely many addresses are ever
taken (`Bounded`).
-/

namespace CAdvanced.LinkedList

open Interleave System Heap

variable {ι α : Type}

/-! ## Memory -/

/-- Only finitely many nodes and mutexes are allocated. -/
structure NodeList.Bounded (s : NodeList ι α) : Prop where
  nodes : {a | s.nodes a ≠ none}.Finite
  mutexes : {a | s.mutexes a ≠ none}.Finite

/-- A step writes to one node, to one mutex, or to none. -/
inductive Writes [DecidableEq α] (s : NodeList ι α) : NodeList ι α → Prop
  | none : Writes s s
  | node (a : α) (n : Option (Node α)) :
      Writes s { s with nodes := Function.update s.nodes a n }
  | mutex (l : α) (m : Option (Mutex ι)) :
      Writes s { s with mutexes := Function.update s.mutexes l m }

theorem finite_update [DecidableEq α] {β : Type} {f : α → Option β}
    (hf : {a | f a ≠ none}.Finite) (x : α) (v : Option β) :
    {a | Function.update f x v a ≠ none}.Finite := by
  refine (hf.insert x).subset fun a ha => ?_
  by_cases hax : a = x
  · exact .inl hax
  · refine .inr fun hnone => ha ?_
    exact (Function.update_of_ne hax v f).trans hnone

section Memory
variable [DecidableEq α] {s s' : NodeList ι α}

theorem NodeList.Bounded.writes (hB : s.Bounded) (h : Writes s s') : s'.Bounded := by
  cases h with
  | none => exact hB
  | node a n => exact ⟨finite_update hB.nodes a n, hB.mutexes⟩
  | mutex l m => exact ⟨hB.nodes, finite_update hB.mutexes l m⟩

theorem Writes.of_store {a : α} {f : Node α → Node α} (h : s.store a f = some s') :
    Writes s s' := by
  obtain ⟨n, -, rfl⟩ := Option.map_eq_some_iff.mp h
  exact .node a _

theorem Writes.of_mallocNode {m : Malloc ι α} (h : s.mallocNode m = some s') :
    Writes s s' := by
  obtain ⟨-, h⟩ := Option.ite_none_right_eq_some.mp h
  cases h
  exact .node _ _

theorem Writes.of_mallocMutex {m : Malloc ι α} (h : s.mallocMutex m = some s') :
    Writes s s' := by
  obtain ⟨-, h⟩ := Option.ite_none_right_eq_some.mp h
  cases h
  exact .mutex _ _

theorem Writes.of_mutexInit {l : α} (h : s.mutexInit l = some s') : Writes s s' := by
  obtain ⟨m, -, rfl⟩ := Option.map_eq_some_iff.mp h
  exact .mutex _ _

theorem Writes.of_mutexLock {i : ι} {l : α} (h : s.mutexLock i l = some s') :
    Writes s s' := by
  obtain ⟨m, -, h⟩ := Option.bind_eq_some_iff.mp h
  obtain ⟨m', -, rfl⟩ := Option.map_eq_some_iff.mp h
  exact .mutex _ _

theorem Writes.of_mutexUnlock {l : α} (h : s.mutexUnlock l = some s') : Writes s s' := by
  obtain ⟨m, -, rfl⟩ := Option.map_eq_some_iff.mp h
  exact .mutex _ _

theorem initNode_writes {m : Malloc ι α} {v : Int} {next : Option α} {p : InitNode α}
    {r : InitNode α ⊕ α} (h : initNode m v next s p = some (s', r)) : Writes s s' := by
  cases p with
  | malloc =>
      obtain ⟨_, hs, heq⟩ := Option.map_eq_some_iff.mp h
      cases heq
      exact .of_mallocNode hs
  | mallocLock n =>
      obtain ⟨_, hs, heq⟩ := Option.map_eq_some_iff.mp h
      cases heq
      exact .of_mallocMutex hs
  | storeLock n l | storeValue n | storeNext n =>
      obtain ⟨_, hs, heq⟩ := Option.map_eq_some_iff.mp h
      cases heq
      exact .of_store hs
  | loadLock n =>
      obtain ⟨_, -, heq⟩ := Option.map_eq_some_iff.mp h
      cases heq
      exact .none
  | initLock n l =>
      obtain ⟨_, hs, heq⟩ := Option.map_eq_some_iff.mp h
      cases heq
      exact .of_mutexInit hs

theorem addToList_writes {i : ι} {m : Malloc ι α} {v : Int} {p : AddToList α}
    {k : Ctl (AddToList α)} (h : addToList i m v s p = some (s', k)) : Writes s s' := by
  cases p with
  | loadHead =>
      cases h
      exact .none
  | loadLock current | testNext current | whileNext current | loadLockNext previous current
  | loadLockPrevious previous current | loadNextArg current | loadLockLast current =>
      obtain ⟨_, -, heq⟩ := Option.map_eq_some_iff.mp h
      cases heq
      exact .none
  | loadNext current =>
      obtain ⟨_, -, h⟩ := Option.bind_eq_some_iff.mp h
      obtain ⟨_, -, heq⟩ := Option.map_eq_some_iff.mp h
      cases heq
      exact .none
  | lock current l | lockNext previous current l =>
      obtain ⟨_, hs, heq⟩ := Option.map_eq_some_iff.mp h
      cases heq
      exact .of_mutexLock hs
  | unlockPrevious previous current l | unlockLast current l =>
      obtain ⟨_, hs, heq⟩ := Option.map_eq_some_iff.mp h
      cases heq
      exact .of_mutexUnlock hs
  | create current next p =>
      obtain ⟨_, hs, heq⟩ := Option.map_eq_some_iff.mp h
      cases heq
      exact initNode_writes hs
  | storeNext current n =>
      obtain ⟨_, hs, heq⟩ := Option.map_eq_some_iff.mp h
      cases heq
      exact .of_store hs

theorem worker_writes {i : ι} {m : Malloc ι α} {w w' : Worker α}
    (h : worker i m s w = some (s', w')) : Writes s s' := by
  obtain ⟨pc, values⟩ := w
  cases pc with
  | idle =>
      cases values with
      | nil => cases h
      | cons v values =>
          cases h
          exact .none
  | addToList v p =>
      obtain ⟨⟨_, k⟩, hk, heq⟩ := Option.map_eq_some_iff.mp h
      cases heq
      exact addToList_writes hk

end Memory

/-! ## Who can move -/

/-- `malloc` returns `a`. -/
def Malloc.at (a : α) : Malloc ι α := ⟨a, ⟨0, none, a⟩, none⟩

/-- The node whose lock the thread is about to take. -/
def Worker.wants : Worker α → Option α
  | ⟨.addToList _ (.lock current _), _⟩ | ⟨.addToList _ (.lockNext _ current _), _⟩ =>
      some current
  | _ => none

section Enabled
variable [DecidableEq α] {i : ι} {s : NodeList ι α} {L : List α}

theorem initNode_enabled {v : Int} {p : InitNode α} (hp : p.Knows s v) (next : Option α)
    {a l : α} (ha : s.nodes a = none) (hl : s.mutexes l = none) :
    ∃ m : Malloc ι α, (initNode m v next s p).isSome = true := by
  have hstore : ∀ {n : α} {f : Node α → Node α}, s.nodes n ≠ none →
      (s.store n f).isSome = true := by
    intro n f hn
    rw [NodeList.store, Option.isSome_map]
    exact Option.isSome_iff_ne_none.mpr hn
  have hnode : ∀ {n : α} {P : Node α → Prop}, (∃ x, s.nodes n = some x ∧ P x) →
      s.nodes n ≠ none := by
    rintro n P ⟨x, hx, -⟩
    rw [hx]
    exact Option.some_ne_none x
  cases p with
  | malloc =>
      refine ⟨.at a, ?_⟩
      rw [initNode, Option.isSome_map, NodeList.mallocNode,
        if_pos (show s.nodes (Malloc.at a).addr = none from ha)]
      rfl
  | mallocLock n =>
      refine ⟨.at l, ?_⟩
      rw [initNode, Option.isSome_map, NodeList.mallocMutex,
        if_pos (show s.mutexes (Malloc.at l).addr = none from hl)]
      rfl
  | storeLock n l' =>
      refine ⟨.at a, ?_⟩
      rw [initNode, Option.isSome_map]
      exact hstore hp.1
  | loadLock n =>
      refine ⟨.at a, ?_⟩
      rw [initNode, Option.isSome_map]
      exact Option.isSome_iff_ne_none.mpr (hnode hp)
  | initLock n l' =>
      obtain ⟨x, -, hm, rfl⟩ := hp
      refine ⟨.at a, ?_⟩
      rw [initNode, Option.isSome_map, NodeList.mutexInit, Option.isSome_map]
      exact Option.isSome_iff_ne_none.mpr hm
  | storeValue n | storeNext n =>
      refine ⟨.at a, ?_⟩
      rw [initNode, Option.isSome_map]
      exact hstore (hnode hp)

/-- A thread that has not finished can move, unless the lock it wants is taken. -/
theorem worker_enabled {w : Worker α} (hR : Ready i s L w) {a l : α} (ha : s.nodes a = none)
    (hl : s.mutexes l = none) (hw : w ≠ ⟨.idle, []⟩)
    (hwants : ∀ b, w.wants = some b → s.mutexOf b = some none) :
    ∃ m, (worker i m s w).isSome = true := by
  have hnode : ∀ {n}, n ∈ L → s.nodes n ≠ none := by
    intro n hn hnone
    refine hR.chain.allocated hn ?_
    rw [NodeList.link, hnone]
    rfl
  have hload : ∀ {n} {β : Type} {f : Node α → β}, n ∈ L → ((s.nodes n).map f).isSome = true := by
    intro n β f hn
    rw [Option.isSome_map]
    exact Option.isSome_iff_ne_none.mpr (hnode hn)
  have hlock : ∀ {b l'}, s.lockAt b = some l' → s.mutexOf b = some none →
      (s.mutexLock i l').isSome = true := by
    intro b l' hb hfree
    rw [NodeList.mutexOf_of_lockAt hb] at hfree
    rw [NodeList.mutexLock, hfree]
    rfl
  have hunlock : ∀ {b l'}, b ∈ L → s.lockAt b = some l' → (s.mutexUnlock l').isSome = true := by
    intro b l' hb hl'
    rw [NodeList.mutexUnlock, Option.isSome_map]
    exact Option.isSome_iff_ne_none.mpr (hR.lock_allocated hb hl')
  have hknows := hR.knows
  obtain ⟨pc, values⟩ := w
  cases pc with
  | idle =>
      cases values with
      | nil => exact absurd rfl hw
      | cons v values => exact ⟨.at a, rfl⟩
  | addToList v p =>
      suffices h : ∃ m, (addToList i m v s p).isSome = true by
        obtain ⟨m, hm⟩ := h
        exact ⟨m, by rw [worker, Option.isSome_map]; exact hm⟩
      cases p with
      | create current next p =>
          obtain ⟨-, -, -, hp⟩ := hknows
          obtain ⟨m, hm⟩ := initNode_enabled hp next ha hl
          exact ⟨m, by rw [addToList, Option.isSome_map]; exact hm⟩
      | loadHead => exact ⟨.at a, rfl⟩
      | loadLock current =>
          obtain rfl : current = s.head := hknows
          exact ⟨.at a, hload hR.head_mem⟩
      | lock current l' =>
          refine ⟨.at a, ?_⟩
          rw [addToList, Option.isSome_map]
          exact hlock hknows.2 (hwants current rfl)
      | testNext current | whileNext current | loadLockLast current =>
          exact ⟨.at a, hload hknows⟩
      | loadNext current =>
          obtain ⟨hmem, b, hb⟩ := hknows
          obtain ⟨n, hn, hnext⟩ := Option.map_eq_some_iff.mp hb
          refine ⟨.at a, ?_⟩
          rw [addToList, hn, Option.bind_some, hnext]
          rfl
      | loadLockNext previous current => exact ⟨.at a, hload hknows.2.1⟩
      | lockNext previous current l' =>
          refine ⟨.at a, ?_⟩
          rw [addToList, Option.isSome_map]
          exact hlock hknows.2.2.2 (hwants current rfl)
      | loadLockPrevious previous current | loadNextArg previous =>
          exact ⟨.at a, hload hknows.1⟩
      | unlockPrevious previous current l' =>
          refine ⟨.at a, ?_⟩
          rw [addToList, Option.isSome_map]
          exact hunlock hknows.1 hknows.2.2.2
      | storeNext current n =>
          refine ⟨.at a, ?_⟩
          rw [addToList, Option.isSome_map, NodeList.store]
          exact hload hknows.1
      | unlockLast current l' =>
          refine ⟨.at a, ?_⟩
          rw [addToList, Option.isSome_map]
          exact hunlock hknows.1 hknows.2

end Enabled

/-- A thread that holds a lock and wants another one wants that of the next node. -/
theorem Worker.Knows.wants {s : NodeList ι α} {L : List α} {w : Worker α} {a b : α}
    (h : w.Knows s L) (ha : a ∈ w.held) (hb : w.wants = some b) :
    b ∈ L ∧ s.link a = some (some b) := by
  obtain ⟨pc, values⟩ := w
  cases pc with
  | idle => cases hb
  | addToList v p =>
      cases p with
      | lock current l => cases ha
      | lockNext previous current l =>
          cases hb
          obtain rfl := List.mem_singleton.mp ha
          exact ⟨h.2.1, h.2.2.1⟩
      | _ => cases hb

/-- A thread waits for a lock of the chain. -/
theorem Worker.Knows.wants_mem {s : NodeList ι α} {L : List α} {w : Worker α} {b : α}
    (h : w.Knows s L) (hhead : s.head ∈ L) (hb : w.wants = some b) : b ∈ L := by
  obtain ⟨pc, values⟩ := w
  cases pc with
  | idle => cases hb
  | addToList v p =>
      cases p with
      | lock current l =>
          cases hb
          exact h.1 ▸ hhead
      | lockNext previous current l =>
          cases hb
          exact h.2.1
      | _ => cases hb

section Progress
variable [DecidableEq ι] [DecidableEq α] {values : ι → List Int} {d l : α} {L : List α}
  {c : Conf ι (NodeList ι α) (Worker α)}

/-- A thread that has not finished can move, or another one holds the lock it wants. -/
theorem Inv.moves_or_waits [Infinite α] (values : ι → List Int) (d l : α) (hI : Inv L c)
    (hB : c.shared.Bounded) (i : ι) (hi : c.threads i ≠ ⟨.idle, []⟩) :
    (program values d l).CanMove c
      ∨ ∃ b j, (c.threads i).wants = some b ∧ b ∈ L ∧ b ∈ (c.threads j).held := by
  by_cases hfree : ∀ b, (c.threads i).wants = some b → c.shared.mutexOf b = some none
  · obtain ⟨a, ha⟩ := hB.nodes.exists_notMem
    obtain ⟨x, hx⟩ := hB.mutexes.exists_notMem
    obtain ⟨m, hm⟩ := worker_enabled (hI.ready i) (not_not.mp ha) (not_not.mp hx) hi hfree
    obtain ⟨c', hc'⟩ := Conf.step_isSome hm
    exact .inl ⟨⟨i, m⟩, c', hc'⟩
  · obtain ⟨b, hb⟩ := not_forall.mp hfree
    obtain ⟨hwants, htaken⟩ := Classical.not_imp.mp hb
    have hmem := (hI.knows i).wants_mem (hI.ready i).head_mem hwants
    obtain ⟨m, hm, hheld⟩ := hI.locks hmem
    cases m with
    | none => exact absurd hm htaken
    | some j => exact .inr ⟨b, j, hwants, hmem, of_decide_eq_true ((hheld j).mpr rfl)⟩

/-- **Whoever holds a lock can move, or waits further down the chain.** -/
theorem Inv.holder_moves [Infinite α] (hI : Inv L c) (hB : c.shared.Bounded) :
    ∀ {n : Nat} {b : α} {j : ι}, L.length - L.idxOf b = n → b ∈ L →
      b ∈ (c.threads j).held → (program values d l).CanMove c := by
  intro n
  induction n with
  | zero =>
      intro b j hn hb _
      exact absurd hn (Nat.sub_ne_zero_of_lt (List.idxOf_lt_length_of_mem hb))
  | succ n ih =>
      intro b j hn hb hheld
      have hj : c.threads j ≠ ⟨.idle, []⟩ := by
        intro hidle
        rw [hidle] at hheld
        cases hheld
      rcases hI.moves_or_waits values d l hB j hj with
        hmove | ⟨b', k, hwants, hmem, hholder⟩
      · exact hmove
      · have hnext := hI.chain.idxOf_next hb ((hI.knows j).wants hheld hwants).2
        exact ih (by omega) hmem hholder

/-! ## Locks -/

/-- Thread `i` holds the lock of the node at `a`. -/
def NodeList.LockedBy (s : NodeList ι α) (a : α) (i : ι) : Prop := s.mutexOf a = some (some i)

omit [DecidableEq ι] in
theorem Inv.lockedBy_iff (hI : Inv L c) {a : α} {i : ι} (ha : a ∈ L) :
    c.shared.LockedBy a i ↔ a ∈ (c.threads i).held := by
  obtain ⟨m, hm, hheld⟩ := hI.locks ha
  rw [NodeList.LockedBy, hm, Option.some.injEq, ← hheld i, decide_eq_true_iff]

omit [DecidableEq ι] [DecidableEq α] in
/-- The locks that a thread holds: none, that of one node, or those of two nodes of which
the second follows the first. -/
theorem Worker.Knows.held_cases {s : NodeList ι α} {w : Worker α} (h : w.Knows s L) :
    w.held = [] ∨ (∃ a, w.held = [a]) ∨ ∃ a b, w.held = [a, b] ∧ s.link a = some (some b) := by
  obtain ⟨pc, values⟩ := w
  cases pc with
  | idle => exact .inl rfl
  | addToList v p =>
      cases p with
      | loadHead | loadLock current | lock current l => exact .inl rfl
      | loadLockPrevious previous current => exact .inr (.inr ⟨previous, current, rfl, h.2.2⟩)
      | unlockPrevious previous current l => exact .inr (.inr ⟨previous, current, rfl, h.2.2.1⟩)
      | _ => exact .inr (.inl ⟨_, rfl⟩)

omit [DecidableEq ι] in
/-- A lock is taken with none in hand, or with that of the node before. -/
theorem Worker.Knows.held_grows {s s' : NodeList ι α} {w w' : Worker α} {i : ι}
    {m : Malloc ι α} (hknows : w.Knows s L) (h : worker i m s w = some (s', w')) {a b : α}
    (hb : b ∈ w'.held) (hnew : b ∉ w.held) (ha : a ∈ w.held) : s.link a = some (some b) := by
  obtain ⟨pc, values⟩ := w
  cases pc with
  | idle => cases ha
  | addToList v p =>
      obtain ⟨⟨_, k⟩, hk, heq⟩ := Option.map_eq_some_iff.mp h
      cases heq
      cases p with
      | loadHead | loadLock current | lock current l => cases ha
      | lockNext previous current l =>
          obtain ⟨_, -, heq⟩ := Option.map_eq_some_iff.mp hk
          cases heq
          obtain rfl := List.mem_singleton.mp ha
          rcases List.mem_pair.mp hb with rfl | rfl
          · exact absurd (List.mem_singleton_self b) hnew
          · exact hknows.2.2.1
      | testNext current | whileNext current =>
          obtain ⟨_, -, heq⟩ := Option.map_eq_some_iff.mp hk
          cases heq
          refine absurd ?_ hnew
          split at hb <;> exact hb
      | loadNext current =>
          obtain ⟨_, -, hk⟩ := Option.bind_eq_some_iff.mp hk
          obtain ⟨_, -, heq⟩ := Option.map_eq_some_iff.mp hk
          cases heq
          exact absurd hb hnew
      | create current next p =>
          obtain ⟨⟨_, r⟩, -, heq⟩ := Option.map_eq_some_iff.mp hk
          cases heq
          refine absurd ?_ hnew
          cases r <;> exact hb
      | unlockPrevious previous current l =>
          obtain ⟨_, -, heq⟩ := Option.map_eq_some_iff.mp hk
          cases heq
          exact absurd (List.mem_cons_of_mem previous hb) hnew
      | unlockLast current l =>
          obtain ⟨_, -, heq⟩ := Option.map_eq_some_iff.mp hk
          cases heq
          cases hb
      | loadLockNext previous current | loadLockPrevious previous current | loadNextArg current
      | storeNext current n | loadLockLast current =>
          obtain ⟨_, -, heq⟩ := Option.map_eq_some_iff.mp hk
          cases heq
          exact absurd hb hnew

/-- A step of thread `m.tid` takes the lock of a node only for itself, and while it holds no
other one than that of the node before; and it gives back none but its own. -/
theorem Inv.lock_step (hI : Inv L c) {m : Move ι α} {c' : Conf ι (NodeList ι α) (Worker α)}
    (h : (program values d l).next m c = some c') {b : α} (hb : b ∈ L) {j : ι} :
    (¬ c.shared.LockedBy b j → c'.shared.LockedBy b j →
        m.tid = j ∧ c.shared.mutexOf b = some none
        ∧ ∀ a ∈ L, c.shared.LockedBy a j → c.shared.link a = some (some b))
      ∧ (c.shared.LockedBy b j → ¬ c'.shared.LockedBy b j →
        m.tid = j ∧ c'.shared.mutexOf b = some none) := by
  obtain ⟨L', hI', hspec⟩ := hI.step h
  obtain ⟨m₀, m₁, hm₀, hm₁, hmoves⟩ := hspec.locks b hb
  rw [NodeList.LockedBy, NodeList.LockedBy, hm₀, hm₁, Option.some.injEq, Option.some.injEq,
    Option.some.injEq, Option.some.injEq]
  generalize hd : decide (b ∈ (c.threads m.tid).held) = held at hmoves
  generalize hd' : decide (b ∈ (c'.threads m.tid).held) = held' at hmoves
  cases hmoves with
  | keep => exact ⟨fun hne heq => absurd heq hne, fun heq hne => absurd heq hne⟩
  | lock =>
      refine ⟨fun _ heq => ⟨Option.some.inj heq, rfl, fun a ha hlocked => ?_⟩, nofun⟩
      cases heq
      exact (hI.knows _).held_grows (Conf.step_mover h) (of_decide_eq_true hd')
        (of_decide_eq_false hd) ((hI.lockedBy_iff ha).mp hlocked)
  | unlock =>
      refine ⟨nofun, fun heq _ => ⟨?_, rfl⟩⟩
      have hmover := (hI.lockedBy_iff hb).mpr (of_decide_eq_true hd)
      rw [NodeList.LockedBy, hm₀, heq] at hmover
      exact (Option.some.inj (Option.some.inj hmover)).symm

/-! ## The result -/

omit [DecidableEq ι] in
theorem bounded_initList (d l : α) : (initList d l : NodeList ι α).Bounded :=
  ⟨finite_update (by simp) d _, finite_update (by simp) l _⟩

theorem invariant (values : ι → List Int) (d l : α) :
    (program values d l).Inductive fun c => (∃ L, Inv L c) ∧ c.shared.Bounded where
  init := ⟨⟨[d], inv_initial values d l⟩, bounded_initList d l⟩
  step := by
    rintro m c c' ⟨⟨L, hI⟩, hB⟩ h
    obtain ⟨L', hI', -⟩ := hI.step h
    exact ⟨⟨L', hI'⟩, hB.writes (worker_writes (Conf.step_mover h))⟩

/-- **`linked-list.c` never deadlocks.** In every reachable state, with the chain `L` from
the head node on: the node locks that a thread holds are none, one, or those of two nodes
that follow each other, and none when it is not in `addToList`; a step takes a lock that is
free, and while its thread holds no other lock than that of the node before; a lock is
given back by the thread that took it; and if a thread has not finished, some thread can
move. -/
theorem never_deadlocks [Infinite α] (values : ι → List Int) (d l : α)
    {c : Conf ι (NodeList ι α) (Worker α)} (hc : (program values d l).Reachable c) :
    ∃ L, IsChain c.shared.link L ∧ L.head? = some c.shared.head
      ∧ (∀ i, ∃ held : List α,
          (held = [] ∨ (∃ a, held = [a])
            ∨ ∃ a b, held = [a, b] ∧ c.shared.link a = some (some b))
          ∧ (∀ a ∈ held, a ∈ L) ∧ (∀ a ∈ L, c.shared.LockedBy a i ↔ a ∈ held)
          ∧ ((c.threads i).pc = .idle → held = []))
      ∧ (∀ m c', (program values d l).next m c = some c' → ∀ b ∈ L, ∀ j,
          (¬ c.shared.LockedBy b j → c'.shared.LockedBy b j →
            m.tid = j ∧ c.shared.mutexOf b = some none
            ∧ ∀ a ∈ L, c.shared.LockedBy a j → c.shared.link a = some (some b))
          ∧ (c.shared.LockedBy b j → ¬ c'.shared.LockedBy b j →
            m.tid = j ∧ c'.shared.mutexOf b = some none))
      ∧ ((∃ i, c.threads i ≠ ⟨.idle, []⟩) → (program values d l).CanMove c) := by
  obtain ⟨⟨L, hI⟩, hB⟩ := (invariant values d l).reachable hc
  refine ⟨L, hI.chain, hI.first, ?held, fun m c' h b hb j => hI.lock_step h hb, ?progress⟩
  case held =>
    intro i
    refine ⟨(c.threads i).held, (hI.knows i).held_cases, fun a => (hI.knows i).held_mem,
      fun a => hI.lockedBy_iff, ?_⟩
    intro hidle
    generalize c.threads i = w at hidle ⊢
    obtain ⟨pc, vs⟩ := w
    cases hidle
    rfl
  case progress =>
    rintro ⟨i, hi⟩
    rcases hI.moves_or_waits values d l hB i hi with
      hmove | ⟨b, j, -, hb, hheld⟩
    · exact hmove
    · exact hI.holder_moves hB rfl hb hheld

/-- Thread 1 waits for the lock of the head node, which thread 0 holds: thread 0 can move. -/
theorem never_deadlocks_waiting :
    ∃ c : Conf (Fin 2) (NodeList (Fin 2) Nat) (Worker Nat),
      (program (fun i => if i = 0 then [5] else [7]) 0 0).Reachable c
      ∧ (c.threads 1).pc = .addToList 7 (.lock 0 0)
      ∧ c.shared.LockedBy 0 0
      ∧ (program (fun i => if i = 0 then [5] else [7]) 0 0).CanMove c := by
  let move (i : Fin 2) : Move (Fin 2) Nat := ⟨i, 1, ⟨0, none, 0⟩, none⟩
  obtain ⟨c, hrun, hc⟩ := Option.any_eq_true _ _ |>.mp
    (show (((program (fun i => if i = 0 then [5] else [7]) 0 0).exec
        (List.replicate 5 (move 0) ++ List.replicate 3 (move 1))
        (initial (fun i => if i = 0 then [5] else [7]) 0 0)).any fun c =>
      (c.threads 1).pc = .addToList 7 (.lock 0 0) ∧ c.shared.mutexOf 0 = some (some 0)) = true by
      decide +kernel)
  obtain ⟨hpc, hlocked⟩ := of_decide_eq_true hc
  obtain ⟨L, -, -, -, -, hprogress⟩ := never_deadlocks _ 0 0 ⟨_, hrun⟩
  refine ⟨c, ⟨_, hrun⟩, hpc, hlocked, hprogress ⟨1, fun hidle => ?_⟩⟩
  rw [hidle] at hpc
  cases hpc

end Progress

end CAdvanced.LinkedList
