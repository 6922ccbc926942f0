import CAdvanced.LinkedList.Knowledge

/-!
# LinkedList — Steps

What one step does: to the chain (`Effect`), to the mutexes of its nodes
(`LockMoves`), and to the thread that makes it (`Walks`, `StepSpec`). There is one
lemma for each kind of step: those that only fill a local variable, those that
write to the node under construction, those that take or give back a lock of the
chain, and the link.
-/

namespace CAdvanced.LinkedList

open Interleave Heap

variable {ι α : Type}

/-! ## What a step does -/

/-- The value with which a step takes the lock of the head node. -/
def Worker.enters : Worker α → Option Int
  | ⟨.addToList v (.lock _ _), _⟩ => some v
  | _ => none

/-- The value that a step links in. -/
def Worker.links : Worker α → Option Int
  | ⟨.addToList v (.storeNext _ _), _⟩ => some v
  | _ => none

/-- How a step that enters with the value `enters` and links the value `links`
moves its thread along the chain. -/
inductive Walks (s : NodeList ι α) :
    Option Int → Option Int → Option (α × Int) → Option (α × Int) → Prop
  | stay {p : Option (α × Int)} : Walks s none none p p
  | enter {v : Int} : s.mutexOf s.head = some none →
      Walks s (some v) none none (some (s.head, v))
  | advance {a b : α} {v : Int} : s.link a = some (some b) → s.mutexOf b = some none →
      Walks s none none (some (a, v)) (some (b, v))
  | leave {a : α} {v : Int} : s.link a = some none → Walks s none (some v) (some (a, v)) none

/-- The step of `w` takes the list `s` with the chain `L` to `s'` with `L'`. -/
structure Effect (s s' : NodeList ι α) (L L' : List α) (w : Worker α) : Prop where
  chain : IsChain s'.link L'
  head : s'.head = s.head
  grows : ∃ xs, L' = L ++ xs
  lockAt : ∀ {a}, a ∈ L → s'.lockAt a = s.lockAt a
  link : ∀ {a b}, a ∈ L → s.link a = some (some b) → s'.link a = some (some b)
  null : ∀ {a}, a ∈ L → a ∉ w.held → s.link a = some none → s'.link a = some none
  node : ∀ {a}, a ∉ L → w.ownedNode ≠ some a → s.nodes a ≠ none → s'.nodes a = s.nodes a
  mutex : ∀ {l}, (∀ a ∈ L, s.lockAt a ≠ some l) → w.ownedLock s ≠ some l →
    s.mutexes l ≠ none → s'.mutexes l = s.mutexes l
  fresh : ∀ {a}, a ∈ L' → a ∉ L →
    w.ownedNode = some a ∧ s'.lockAt a = w.ownedLock s ∧ s'.mutexOf a = some none
  values : L'.tail.map s'.valueAt = L.tail.map s.valueAt ++ w.links.toList.map some

section Step
variable [DecidableEq α]

/-- What the invariant gives to the thread that moves. -/
structure Ready (i : ι) (s : NodeList ι α) (L : List α) (w : Worker α) : Prop where
  chain : IsChain s.link L
  first : L.head? = some s.head
  knows : w.Knows s L
  nodeOutside : ∀ {a}, w.ownedNode = some a → a ∉ L
  lockOutside : ∀ {l}, w.ownedLock s = some l → ∀ a ∈ L, s.lockAt a ≠ some l
  lockInj : ∀ {a b}, a ∈ L → b ∈ L → s.lockAt a = s.lockAt b → a = b
  locks : ∀ {a}, a ∈ L → ∃ m, s.mutexOf a = some m ∧ (decide (a ∈ w.held) = true ↔ m = some i)

/-- What the step does to the mutexes of the chain. -/
def LockMoves (i : ι) (s s' : NodeList ι α) (L : List α) (w w' : Worker α) : Prop :=
  ∀ a ∈ L, ∃ m m', s.mutexOf a = some m ∧ s'.mutexOf a = some m'
    ∧ Mutex.Moves i m (decide (a ∈ w.held)) m' (decide (a ∈ w'.held))

/-- What the step of thread `i` establishes for itself. -/
structure StepSpec (i : ι) (s s' : NodeList ι α) (L L' : List α) (w w' : Worker α) :
    Prop where
  effect : Effect s s' L L' w
  locks : LockMoves i s s' L w w'
  walks : Walks s w.enters w.links w.waits w'.waits
  knows : w'.Knows s' L'
  held : ∀ {a}, a ∈ w'.held → a ∈ L
  ownedNode : ∀ {a}, w'.ownedNode = some a → a ∉ L' ∧ (w.ownedNode = some a ∨ s.nodes a = none)
  ownedLock : ∀ {l}, w'.ownedLock s' = some l →
    (∀ a ∈ L', s'.lockAt a ≠ some l) ∧ (w.ownedLock s = some l ∨ s.mutexes l = none)

variable {i : ι} {m : Malloc ι α} {s s' : NodeList ι α} {L : List α} {w w' : Worker α}

theorem Ready.head_mem (hR : Ready i s L w) : s.head ∈ L := List.mem_of_head? hR.first

/-- The mutex of a node on the chain is allocated. -/
theorem Ready.lock_allocated (hR : Ready i s L w) {a l : α} (ha : a ∈ L)
    (hl : s.lockAt a = some l) : s.mutexes l ≠ none := by
  obtain ⟨m, hm, -⟩ := hR.locks ha
  rw [NodeList.mutexOf, hl, Option.bind_some] at hm
  rw [hm]
  exact Option.some_ne_none m

/-! ### Steps that leave the nodes of the chain alone -/

theorem Effect.refl (hR : Ready i s L w) (hlinks : w.links = none) : Effect s s L L w where
  chain := hR.chain
  head := rfl
  grows := ⟨[], (List.append_nil L).symm⟩
  lockAt _ := rfl
  link _ h := h
  null _ _ h := h
  node _ _ _ := rfl
  mutex _ _ _ := rfl
  fresh h hn := absurd h hn
  values := by rw [hlinks]; exact (List.append_nil _).symm

/-- A write to a node that is the thread's own or free. -/
theorem Effect.writeNode (hR : Ready i s L w) {x : α} {n : Option (Node α)} (hout : x ∉ L)
    (hx : w.ownedNode = some x ∨ s.nodes x = none) (hlinks : w.links = none) :
    Effect s { s with nodes := Function.update s.nodes x n } L L w := by
  have hsame : ∀ {a}, a ∈ L →
      ({ s with nodes := Function.update s.nodes x n } : NodeList ι α).nodes a = s.nodes a := by
    intro a ha
    refine Function.update_of_ne ?_ _ _
    rintro rfl
    exact hout ha
  refine ⟨hR.chain.congr ?_, rfl, ⟨[], (List.append_nil L).symm⟩, ?_, ?_, ?_, ?_,
    fun _ _ _ => rfl, fun h hn => absurd h hn, ?_⟩
  · intro a ha
    rw [NodeList.link, NodeList.link, hsame ha]
  · intro a ha
    rw [NodeList.lockAt, NodeList.lockAt, hsame ha]
  · intro a b ha hlink
    rw [NodeList.link, hsame ha]
    exact hlink
  · intro a ha _ hnull
    rw [NodeList.link, hsame ha]
    exact hnull
  · intro a _ hown ha
    refine Function.update_of_ne ?_ _ _
    rintro rfl
    exact hx.elim hown ha
  · rw [hlinks]
    refine (List.map_congr_left ?_).trans (List.append_nil _).symm
    intro a ha
    rw [NodeList.valueAt, NodeList.valueAt, hsame (List.mem_of_mem_tail ha)]

/-- A write to a mutex: of the chain, the thread's own, or a free one. -/
theorem Effect.writeMutex (hR : Ready i s L w) {l : α} {n : Option (Mutex ι)}
    (hl : (∃ b ∈ L, s.lockAt b = some l) ∨ w.ownedLock s = some l ∨ s.mutexes l = none)
    (hlinks : w.links = none) :
    Effect s { s with mutexes := Function.update s.mutexes l n } L L w where
  chain := hR.chain
  head := rfl
  grows := ⟨[], (List.append_nil L).symm⟩
  lockAt _ := rfl
  link _ h := h
  null _ _ h := h
  node _ _ _ := rfl
  mutex := by
    intro k hk hown halloc
    refine Function.update_of_ne ?_ _ _
    rintro rfl
    rcases hl with ⟨b, hb, hbl⟩ | hl | hl
    · exact hk b hb hbl
    · exact hown hl
    · exact halloc hl
  fresh h hn := absurd h hn
  values := by rw [hlinks]; exact (List.append_nil _).symm

theorem LockMoves.keep (hR : Ready i s L w) (hsame : ∀ {a}, a ∈ L → s'.mutexOf a = s.mutexOf a)
    (hheld : w'.held = w.held) : LockMoves i s s' L w w' := by
  intro a ha
  obtain ⟨m, hm, -⟩ := hR.locks ha
  refine ⟨m, m, hm, (hsame ha).trans hm, ?_⟩
  rw [hheld]
  exact .keep

/-- A write to a node outside the chain leaves the chain's mutexes alone. -/
theorem LockMoves.writeNode (hR : Ready i s L w) {x : α} {n : Option (Node α)} (hout : x ∉ L)
    (hheld : w'.held = w.held) :
    LockMoves i s { s with nodes := Function.update s.nodes x n } L w w' := by
  refine .keep hR ?_ hheld
  intro a ha
  have hax : a ≠ x := by
    rintro rfl
    exact hout ha
  simp only [NodeList.mutexOf, NodeList.lockAt, Function.update_of_ne hax]

/-- The mutexes of the nodes after a write to the mutex at `l`. -/
theorem NodeList.mutexOf_update {l a k : α} {n : Option (Mutex ι)} (hk : s.lockAt a = some k) :
    ({ s with mutexes := Function.update s.mutexes l n } : NodeList ι α).mutexOf a
      = Function.update s.mutexes l n k :=
  NodeList.mutexOf_of_lockAt (s := { s with mutexes := Function.update s.mutexes l n }) hk

/-- So does a write to a mutex that none of its nodes has. -/
theorem LockMoves.writeMutex (hR : Ready i s L w) {l : α} {n : Option (Mutex ι)}
    (hl : ∀ a ∈ L, s.lockAt a ≠ some l) (hheld : w'.held = w.held) :
    LockMoves i s { s with mutexes := Function.update s.mutexes l n } L w w' := by
  refine .keep hR ?_ hheld
  intro a ha
  obtain ⟨m, hm, -⟩ := hR.locks ha
  obtain ⟨k, hk, -⟩ := Option.bind_eq_some_iff.mp hm
  have hkl : k ≠ l := by
    rintro rfl
    exact hl a ha hk
  rw [NodeList.mutexOf_of_lockAt hk]
  exact (NodeList.mutexOf_update hk).trans (Function.update_of_ne hkl _ _)

/-- Taking or giving back the lock of the node `b` of the chain. -/
theorem LockMoves.at (hR : Ready i s L w) {b l : α} {m₀ m₁ : Mutex ι} (hb : b ∈ L)
    (hl : s.lockAt b = some l) (hm : s.mutexes l = some m₀)
    (hmove : Mutex.Moves i m₀ (decide (b ∈ w.held)) m₁ (decide (b ∈ w'.held)))
    (hheld : ∀ a, a ≠ b → (a ∈ w'.held ↔ a ∈ w.held)) :
    LockMoves i s { s with mutexes := Function.update s.mutexes l (some m₁) } L w w' := by
  intro a ha
  by_cases hab : a = b
  · subst hab
    exact ⟨m₀, m₁, (NodeList.mutexOf_of_lockAt hl).trans hm,
      (NodeList.mutexOf_update hl).trans (Function.update_self ..), hmove⟩
  · obtain ⟨m, hma, -⟩ := hR.locks ha
    obtain ⟨k, hk, hkm⟩ := Option.bind_eq_some_iff.mp hma
    have hkl : k ≠ l := by
      rintro rfl
      exact hab (hR.lockInj ha hb (hk.trans hl.symm))
    refine ⟨m, m, hma,
      (NodeList.mutexOf_update hk).trans ((Function.update_of_ne hkl _ _).trans hkm), ?_⟩
    rw [decide_eq_decide.mpr (hheld a hab)]
    exact .keep

theorem NodeList.link_update {a x : α} {n : Option (Node α)} (h : a ≠ x) :
    ({ s with nodes := Function.update s.nodes x n } : NodeList ι α).link a = s.link a :=
  congrArg (Option.map Node.next) (Function.update_of_ne h n s.nodes)

theorem NodeList.lockAt_update {a x : α} {n : Option (Node α)} (h : a ≠ x) :
    ({ s with nodes := Function.update s.nodes x n } : NodeList ι α).lockAt a = s.lockAt a :=
  congrArg (Option.map Node.lock) (Function.update_of_ne h n s.nodes)

theorem NodeList.lockAt_update_self {x : α} {n : Node α} :
    ({ s with nodes := Function.update s.nodes x (some n) } : NodeList ι α).lockAt x
      = some n.lock :=
  NodeList.lockAt_of_node (s := { s with nodes := Function.update s.nodes x (some n) })
    (Function.update_self x (some n) s.nodes)

/-! ### Kinds of steps -/

/-- A step that only fills a local variable. -/
theorem StepSpec.local (hR : Ready i s L w) (hheld : w'.held = w.held)
    (hwaits : w'.waits = w.waits) (henters : w.enters = none) (hlinks : w.links = none)
    (hnode : w'.ownedNode = none) (hlock : w'.ownedLock s = none) (hknows : w'.Knows s L) :
    StepSpec i s s L L w w' where
  effect := .refl hR hlinks
  locks := .keep hR (fun _ => rfl) hheld
  walks := by
    rw [henters, hlinks, hwaits]
    exact .stay
  knows := hknows
  held ha := hknows.held_mem ha
  ownedNode h := nomatch hnode.symm.trans h
  ownedLock h := nomatch hlock.symm.trans h

/-- A step that writes to the thread's own node. -/
theorem StepSpec.storeOwn (hR : Ready i s L w) {n : α} {y : Node α} {l : α}
    (hnode : w.ownedNode = some n) (hnode' : w'.ownedNode = some n)
    (hlock : w.ownedLock s = some l)
    (hlock' : w'.ownedLock { s with nodes := Function.update s.nodes n (some y) } = some l)
    (hheld : w'.held = w.held) (hwaits : w'.waits = w.waits) (henters : w.enters = none)
    (hlinks : w.links = none)
    (hknows : w'.Knows { s with nodes := Function.update s.nodes n (some y) } L) :
    StepSpec i s { s with nodes := Function.update s.nodes n (some y) } L L w w' where
  effect := .writeNode hR (hR.nodeOutside hnode) (.inl hnode) hlinks
  locks := .writeNode hR (hR.nodeOutside hnode) hheld
  walks := by
    rw [henters, hlinks, hwaits]
    exact .stay
  knows := hknows
  held ha := hknows.held_mem ha
  ownedNode := by
    intro a ha
    obtain rfl := Option.some.inj (hnode'.symm.trans ha)
    exact ⟨hR.nodeOutside hnode, .inl hnode⟩
  ownedLock := by
    intro k hk
    obtain rfl := Option.some.inj (hlock'.symm.trans hk)
    refine ⟨?_, .inl hlock⟩
    intro a ha
    have hne : a ≠ n := by
      rintro rfl
      exact hR.nodeOutside hnode ha
    rw [NodeList.lockAt_update hne]
    exact hR.lockOutside hlock a ha

/-- A step that takes or gives back the lock of the node `b` of the chain. -/
theorem StepSpec.moveLock (hR : Ready i s L w) {b l : α} {m₀ m₁ : Mutex ι} (hb : b ∈ L)
    (hl : s.lockAt b = some l) (hm : s.mutexes l = some m₀)
    (hmove : Mutex.Moves i m₀ (decide (b ∈ w.held)) m₁ (decide (b ∈ w'.held)))
    (hheld : ∀ a, a ≠ b → (a ∈ w'.held ↔ a ∈ w.held))
    (hwalks : Walks s w.enters w.links w.waits w'.waits) (hlinks : w.links = none)
    (hnode : w'.ownedNode = none)
    (hlock : w'.ownedLock { s with mutexes := Function.update s.mutexes l (some m₁) } = none)
    (hknows : w'.Knows { s with mutexes := Function.update s.mutexes l (some m₁) } L) :
    StepSpec i s { s with mutexes := Function.update s.mutexes l (some m₁) } L L w w' where
  effect := .writeMutex hR (.inl ⟨b, hb, hl⟩) hlinks
  locks := .at hR hb hl hm hmove hheld
  walks := hwalks
  knows := hknows
  held ha := hknows.held_mem ha
  ownedNode h := nomatch hnode.symm.trans h
  ownedLock h := nomatch hlock.symm.trans h

/-! ### `initNode` -/

/-- A step of `initNode` on behalf of a thread that stands at the last node
`current`. -/
theorem initNode_step {v : Int} {current : α} {next : Option α} {p : InitNode α}
    {values : List Int} {r : InitNode α ⊕ α}
    (hR : Ready i s L ⟨.addToList v (.create current next p), values⟩)
    (h : initNode m v next s p = some (s', r)) :
    StepSpec i s s' L L ⟨.addToList v (.create current next p), values⟩
      ⟨.addToList v (r.elim (.create current next) (.storeNext current)), values⟩ := by
  obtain ⟨hmem, hnull, hnext, hp⟩ := hR.knows
  have hheld : ∀ {a}, a ∈ [current] → a ∈ L := by
    intro a ha
    obtain rfl := List.mem_singleton.mp ha
    exact hmem
  -- the nodes of the chain are not the one under construction
  have hne : ∀ {n a}, Worker.ownedNode ⟨.addToList v (.create current next p), values⟩ = some n →
      a ∈ L → a ≠ n := by
    rintro n a hn ha rfl
    exact hR.nodeOutside hn ha
  cases p with
  | malloc =>
      simp only [initNode, NodeList.mallocNode, Option.map_eq_some_iff, Prod.mk.injEq] at h
      obtain ⟨s₁, h₁, rfl, rfl⟩ := h
      split at h₁
      case isFalse => cases h₁
      case isTrue hfree =>
        cases h₁
        have hout : m.addr ∉ L := by
          intro hmem
          refine hR.chain.allocated hmem ?_
          rw [NodeList.link, hfree]
          rfl
        refine ⟨.writeNode hR hout (.inr hfree) rfl, .writeNode hR hout rfl, .stay, ?_, hheld, ?_,
          nofun⟩
        · refine ⟨hmem, (NodeList.link_update ?_).trans hnull, hnext, ?_⟩
          · rintro rfl
            exact hout hmem
          · simp [InitNode.Knows]
        · rintro a ⟨⟩
          exact ⟨hout, .inr hfree⟩
  | mallocLock n =>
      simp only [initNode, NodeList.mallocMutex, Option.map_eq_some_iff, Prod.mk.injEq] at h
      obtain ⟨s₁, h₁, rfl, rfl⟩ := h
      split at h₁
      case isFalse => cases h₁
      case isTrue hfree =>
        cases h₁
        have hout : ∀ a ∈ L, s.lockAt a ≠ some m.addr :=
          fun a ha hl => hR.lock_allocated ha hl hfree
        refine ⟨.writeMutex hR (.inr (.inr hfree)) rfl, .writeMutex hR hout rfl, .stay,
          ⟨hmem, hnull, hnext, hp, ?_⟩, hheld, fun ha => ⟨hR.nodeOutside ha, .inl ha⟩, ?_⟩
        · simp
        · rintro l ⟨⟩
          exact ⟨hout, .inr hfree⟩
  | storeLock n l =>
      simp only [initNode, NodeList.store, Option.map_eq_some_iff, Prod.mk.injEq] at h
      obtain ⟨s₁, ⟨x, hx, rfl⟩, rfl, rfl⟩ := h
      exact .storeOwn hR rfl rfl rfl NodeList.lockAt_update_self rfl rfl rfl rfl
        ⟨hmem, (NodeList.link_update (hne rfl hmem)).trans hnull, hnext, _,
          Function.update_self .., hp.2⟩
  | loadLock n =>
      simp only [initNode, Option.map_eq_some_iff, Prod.mk.injEq] at h
      obtain ⟨x, hx, rfl, rfl⟩ := h
      obtain ⟨x', hx', hm⟩ := hp
      obtain rfl := Option.some.inj (hx.symm.trans hx')
      exact ⟨.refl hR rfl, .keep hR (fun _ => rfl) rfl, .stay,
        ⟨hmem, hnull, hnext, x, hx, hm, rfl⟩, hheld,
        fun ha => ⟨hR.nodeOutside ha, .inl ha⟩, fun hl => ⟨hR.lockOutside hl, .inl hl⟩⟩
  | initLock n l =>
      simp only [initNode, NodeList.mutexInit, Option.map_eq_some_iff, Prod.mk.injEq] at h
      obtain ⟨s₁, ⟨k, hk, rfl⟩, rfl, rfl⟩ := h
      obtain ⟨x, hx, hm, rfl⟩ := hp
      have hown : Worker.ownedLock s ⟨.addToList v (.create current next (.initLock n x.lock)),
          values⟩ = some x.lock := NodeList.lockAt_of_node hx
      exact ⟨.writeMutex hR (.inr (.inl hown)) rfl, .writeMutex hR (hR.lockOutside hown) rfl, .stay,
        ⟨hmem, hnull, hnext, x, hx, Function.update_self ..⟩, hheld,
        fun ha => ⟨hR.nodeOutside ha, .inl ha⟩, fun hl => ⟨hR.lockOutside hl, .inl hl⟩⟩
  | storeValue n =>
      simp only [initNode, NodeList.store, Option.map_eq_some_iff, Prod.mk.injEq] at h
      obtain ⟨s₁, ⟨x, hx, rfl⟩, rfl, rfl⟩ := h
      obtain ⟨x', hx', hm⟩ := hp
      obtain rfl := Option.some.inj (hx.symm.trans hx')
      exact .storeOwn hR rfl rfl (NodeList.lockAt_of_node hx) NodeList.lockAt_update_self
        rfl rfl rfl rfl
        ⟨hmem, (NodeList.link_update (hne rfl hmem)).trans hnull, hnext, _,
          Function.update_self .., hm, rfl⟩
  | storeNext n =>
      simp only [initNode, NodeList.store, Option.map_eq_some_iff, Prod.mk.injEq] at h
      obtain ⟨s₁, ⟨x, hx, rfl⟩, rfl, rfl⟩ := h
      obtain ⟨x', hx', hm, hv⟩ := hp
      obtain rfl := Option.some.inj (hx.symm.trans hx')
      exact .storeOwn hR rfl rfl (NodeList.lockAt_of_node hx) NodeList.lockAt_update_self
        rfl rfl rfl rfl
        ⟨hmem, (NodeList.link_update (hne rfl hmem)).trans hnull, _,
          Function.update_self .., hm, hv, hnext⟩

/-! ### `addToList` -/

/-- **Linking** the new node `n` behind the last node `current`. -/
theorem link_effect {v : Int} {current n : α} {values : List Int} {y : Node α}
    (hR : Ready i s L ⟨.addToList v (.storeNext current n), values⟩)
    (hy : s.nodes current = some y) :
    Effect s { s with nodes := Function.update s.nodes current (some { y with next := some n }) }
      L (L ++ [n]) ⟨.addToList v (.storeNext current n), values⟩ := by
  obtain ⟨hmem, hnull, x, hx, hm, hv, hnext⟩ := hR.knows
  have hlast := (hR.chain.link_eq_null hmem).mp hnull
  have hout := hR.nodeOutside (a := n) rfl
  have hne : n ≠ current := by
    rintro rfl
    exact hout hmem
  have hlockn : s.lockAt n = some x.lock := NodeList.lockAt_of_node hx
  refine ⟨hR.chain.snoc hlast hout ?_ ?_ fun a _ ha => NodeList.link_update ha, rfl, ⟨[n], rfl⟩,
    ?lockAt, ?link, ?null, ?node, fun _ _ _ => rfl, ?fresh, ?values⟩
  · simp [NodeList.link]
  · simp [NodeList.link, Function.update_of_ne hne, hx, hnext]
  case lockAt =>
    intro a ha
    by_cases hac : a = current
    · subst hac
      rw [NodeList.lockAt_update_self, NodeList.lockAt_of_node hy]
    · exact NodeList.lockAt_update hac
  case link =>
    intro a b ha hab
    refine (NodeList.link_update ?_).trans hab
    rintro rfl
    rw [hnull] at hab
    cases hab
  case null =>
    intro a ha hheld ha'
    refine (NodeList.link_update ?_).trans ha'
    rintro rfl
    exact hheld (List.mem_singleton_self _)
  case node =>
    intro a ha _ _
    refine Function.update_of_ne ?_ _ _
    rintro rfl
    exact ha hmem
  case fresh =>
    intro a ha hna
    obtain rfl : a = n :=
      List.mem_singleton.mp ((List.mem_append.mp ha).resolve_left hna)
    refine ⟨rfl, NodeList.lockAt_update hne, ?_⟩
    have hlock := (NodeList.lockAt_update (s := s) (n := some { y with next := some a })
      hne).trans hlockn
    exact (NodeList.mutexOf_of_lockAt hlock).trans hm
  case values =>
    have hvalue : ∀ a ∈ L.tail, NodeList.valueAt
        { s with nodes := Function.update s.nodes current (some { y with next := some n }) } a
          = s.valueAt a := by
      intro a _
      by_cases hac : a = current
      · subst hac
        simp [NodeList.valueAt, hy]
      · simp [NodeList.valueAt, Function.update_of_ne hac]
    rw [List.tail_append_of_ne_nil (List.ne_nil_of_mem hmem), List.map_append,
      List.map_congr_left hvalue]
    simp [NodeList.valueAt, Function.update_of_ne hne, hx, hv, Worker.links]

/-- The step reads `list->head` or a field of a node. -/
def AddToList.reads : AddToList α → Bool
  | .loadHead | .loadLock _ | .testNext _ | .whileNext _ | .loadNext _ | .loadLockNext _ _
  | .loadLockPrevious _ _ | .loadNextArg _ | .loadLockLast _ => true
  | _ => false

/-- The step takes a lock of the chain, or gives one back. -/
def AddToList.locks : AddToList α → Bool
  | .lock _ _ | .lockNext _ _ _ | .unlockPrevious _ _ _ | .unlockLast _ _ => true
  | _ => false

omit [DecidableEq α] in
theorem NodeList.link_of_node {a : α} {x : Node α} (h : s.nodes a = some x) :
    s.link a = some x.next := by
  rw [NodeList.link, h]
  rfl

section AddToList
variable {v : Int} {p : AddToList α} {values : List Int} {k : Ctl (AddToList α)}

/-- A read fills a local variable, with what is true of the node that has been read. -/
theorem read_step (hp : p.reads = true) (hR : Ready i s L ⟨.addToList v p, values⟩)
    (h : addToList i m v s p = some (s', k)) :
    StepSpec i s s' L L ⟨.addToList v p, values⟩ ⟨k.resume (.addToList v) .idle, values⟩ := by
  cases p with
  | loadHead =>
      simp only [addToList, Option.some.injEq, Prod.mk.injEq] at h
      obtain ⟨rfl, rfl⟩ := h
      exact .local hR rfl rfl rfl rfl rfl rfl rfl
  | loadLock current | loadLockLast current =>
      simp only [addToList, Option.map_eq_some_iff, Prod.mk.injEq] at h
      obtain ⟨x, hx, rfl, rfl⟩ := h
      exact .local hR rfl rfl rfl rfl rfl rfl ⟨hR.knows, NodeList.lockAt_of_node hx⟩
  | testNext current =>
      simp only [addToList, Option.map_eq_some_iff, Prod.mk.injEq] at h
      obtain ⟨x, hx, rfl, rfl⟩ := h
      have hlink := NodeList.link_of_node hx
      cases hn : x.next with
      | none =>
          exact .local hR rfl rfl rfl rfl rfl rfl
            ⟨hR.knows, hlink.trans (congrArg some hn), rfl, True.intro⟩
      | some b => exact .local hR rfl rfl rfl rfl rfl rfl hR.knows
  | whileNext current =>
      simp only [addToList, Option.map_eq_some_iff, Prod.mk.injEq] at h
      obtain ⟨x, hx, rfl, rfl⟩ := h
      have hlink := NodeList.link_of_node hx
      cases hn : x.next with
      | none =>
          exact .local hR rfl rfl rfl rfl rfl rfl ⟨hR.knows, hlink.trans (congrArg some hn)⟩
      | some b =>
          exact .local hR rfl rfl rfl rfl rfl rfl
            ⟨hR.knows, b, hlink.trans (congrArg some hn)⟩
  | loadNext current =>
      simp only [addToList, Option.bind_eq_some_iff, Option.map_eq_some_iff,
        Prod.mk.injEq] at h
      obtain ⟨x, hx, b, hb, rfl, rfl⟩ := h
      have hlink : s.link current = some (some b) := hb ▸ NodeList.link_of_node hx
      obtain ⟨hmem, -⟩ := hR.knows
      exact .local hR rfl rfl rfl rfl rfl rfl
        ⟨hmem, (hR.chain.next_mem hmem hlink).1, hlink⟩
  | loadLockNext previous current | loadLockPrevious previous current =>
      simp only [addToList, Option.map_eq_some_iff, Prod.mk.injEq] at h
      obtain ⟨x, hx, rfl, rfl⟩ := h
      obtain ⟨hp, hc, hlink⟩ := hR.knows
      exact .local hR rfl rfl rfl rfl rfl rfl
        ⟨hp, hc, hlink, NodeList.lockAt_of_node hx⟩
  | loadNextArg current =>
      simp only [addToList, Option.map_eq_some_iff, Prod.mk.injEq] at h
      obtain ⟨x, hx, rfl, rfl⟩ := h
      obtain ⟨hmem, hnull⟩ := hR.knows
      have hlink := NodeList.link_of_node hx
      exact .local hR rfl rfl rfl rfl rfl rfl
        ⟨hmem, hnull, Option.some.inj (hlink.symm.trans hnull), True.intro⟩
  | _ => cases hp

/-- A lock or an unlock moves the mutex of one node of the chain. -/
theorem lock_step (hp : p.locks = true) (hR : Ready i s L ⟨.addToList v p, values⟩)
    (h : addToList i m v s p = some (s', k)) :
    StepSpec i s s' L L ⟨.addToList v p, values⟩ ⟨k.resume (.addToList v) .idle, values⟩ := by
  cases p with
  | lock current l =>
      simp only [addToList, NodeList.mutexLock, Option.map_eq_some_iff,
        Option.bind_eq_some_iff, Mutex.lock_eq_some, Prod.mk.injEq] at h
      obtain ⟨s₁, ⟨m₀, hm₀, m₁, ⟨rfl, rfl⟩, rfl⟩, rfl, rfl⟩ := h
      obtain ⟨rfl, hl⟩ := hR.knows
      have hmutex := (NodeList.mutexOf_of_lockAt hl).trans hm₀
      refine .moveLock hR hR.head_mem hl hm₀ ?_ ?_ (.enter hmutex) rfl rfl rfl hR.head_mem
      · simp only [Worker.held, Ctl.resume_goto, List.not_mem_nil, List.mem_singleton,
          decide_false, decide_true]
        exact .lock
      · intro a ha
        simp [Worker.held, ha]
  | lockNext previous current l =>
      simp only [addToList, NodeList.mutexLock, Option.map_eq_some_iff,
        Option.bind_eq_some_iff, Mutex.lock_eq_some, Prod.mk.injEq] at h
      obtain ⟨s₁, ⟨m₀, hm₀, m₁, ⟨rfl, rfl⟩, rfl⟩, rfl, rfl⟩ := h
      obtain ⟨hp, hc, hlink, hl⟩ := hR.knows
      have hne := (hR.chain.next_mem hp hlink).2
      have hmutex := (NodeList.mutexOf_of_lockAt hl).trans hm₀
      refine .moveLock hR hc hl hm₀ ?_ ?_ (.advance hlink hmutex) rfl rfl rfl
        ⟨hp, hc, hlink⟩
      · simp only [Worker.held, Ctl.resume_goto, List.mem_singleton, List.mem_pair, hne,
          or_true, decide_false, decide_true]
        exact .lock
      · intro a ha
        simp [Worker.held, ha]
  | unlockPrevious previous current l =>
      simp only [addToList, NodeList.mutexUnlock, Option.map_eq_some_iff, Prod.mk.injEq] at h
      obtain ⟨s₁, ⟨m₀, hm₀, rfl⟩, rfl, rfl⟩ := h
      obtain ⟨hp, hc, hlink, hl⟩ := hR.knows
      have hne := (hR.chain.next_mem hp hlink).2
      refine .moveLock hR hp hl hm₀ ?_ ?_ .stay rfl rfl rfl hc
      · simp only [Worker.held, Ctl.resume_goto, List.mem_singleton, List.mem_pair, hne.symm,
          or_false, decide_false, decide_true]
        exact .unlock
      · intro a ha
        simp [Worker.held, ha]
  | unlockLast current l =>
      simp only [addToList, NodeList.mutexUnlock, Option.map_eq_some_iff, Prod.mk.injEq] at h
      obtain ⟨s₁, ⟨m₀, hm₀, rfl⟩, rfl, rfl⟩ := h
      obtain ⟨hmem, hl⟩ := hR.knows
      refine .moveLock hR hmem hl hm₀ ?_ ?_ .stay rfl rfl rfl True.intro
      · simp only [Worker.held, Ctl.resume_ret, List.not_mem_nil, List.mem_singleton,
          decide_false, decide_true]
        exact .unlock
      · intro a ha
        simp [Worker.held, ha]
  | _ => cases hp

/-- The link makes the chain longer by the new node. -/
theorem link_step {current n : α} (hR : Ready i s L ⟨.addToList v (.storeNext current n), values⟩)
    (h : addToList i m v s (.storeNext current n) = some (s', k)) :
    StepSpec i s s' L (L ++ [n]) ⟨.addToList v (.storeNext current n), values⟩
      ⟨k.resume (.addToList v) .idle, values⟩ := by
  simp only [addToList, NodeList.store, Option.map_eq_some_iff, Prod.mk.injEq] at h
  obtain ⟨s₁, ⟨y, hy, rfl⟩, rfl, rfl⟩ := h
  obtain ⟨hmem, hnull, -⟩ := hR.knows
  have heff := link_effect hR hy
  refine ⟨heff, .keep hR ?_ rfl, .leave hnull, List.mem_append_left _ hmem, ?_, ?_, ?_⟩
  · intro a ha
    rw [NodeList.mutexOf, NodeList.mutexOf, heff.lockAt ha]
  · intro a ha
    obtain rfl := List.mem_singleton.mp ha
    exact hmem
  · intro a ha
    cases ha
  · intro l hl
    cases hl

theorem addToList_step (hR : Ready i s L ⟨.addToList v p, values⟩)
    (h : addToList i m v s p = some (s', k)) :
    ∃ L', StepSpec i s s' L L' ⟨.addToList v p, values⟩
      ⟨k.resume (.addToList v) .idle, values⟩ := by
  cases p with
  | lock | lockNext | unlockPrevious | unlockLast => exact ⟨L, lock_step rfl hR h⟩
  | create current next p =>
      simp only [addToList, Option.map_eq_some_iff, Prod.mk.injEq, Prod.exists] at h
      obtain ⟨s₁, r, hr, rfl, rfl⟩ := h
      exact ⟨L, initNode_step hR hr⟩
  | storeNext current n => exact ⟨L ++ [n], link_step hR h⟩
  | _ => exact ⟨L, read_step rfl hR h⟩

end AddToList

theorem worker_step (hR : Ready i s L w) (h : worker i m s w = some (s', w')) :
    ∃ L', StepSpec i s s' L L' w w' := by
  obtain ⟨pc, values⟩ := w
  cases pc with
  | idle =>
      cases values with
      | nil => cases h
      | cons v values =>
          cases h
          exact ⟨L, .local hR rfl rfl rfl rfl rfl rfl True.intro⟩
  | addToList v p =>
      simp only [worker, Option.map_eq_some_iff, Prod.mk.injEq, Prod.exists] at h
      obtain ⟨s', k, hk, rfl, rfl⟩ := h
      exact addToList_step hR hk

end Step

end CAdvanced.LinkedList
