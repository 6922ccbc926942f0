import CAdvanced.LinkedList.Steps

/-!
# LinkedList — Invariant

What holds between two steps: a chain from `list->head` on, a lock of its own for
each of its nodes, which knows its holder, and what the threads know. Every step
keeps it, with the chain that the step leaves.
-/

namespace CAdvanced.LinkedList

open Interleave Heap

variable {ι α : Type}

/-! ## The invariant -/

/-- The invariant of the program, for the state with the chain `L`. -/
structure Inv [DecidableEq α] (L : List α) (c : Conf ι (NodeList ι α) (Worker α)) : Prop where
  chain : IsChain c.shared.link L
  first : L.head? = some c.shared.head
  knows : ∀ i, (c.threads i).Knows c.shared L
  locks : ∀ {a}, a ∈ L → ∃ m, c.shared.mutexOf a = some m
    ∧ ∀ i, decide (a ∈ (c.threads i).held) = true ↔ m = some i
  lockInj : ∀ {a b}, a ∈ L → b ∈ L → c.shared.lockAt a = c.shared.lockAt b → a = b
  nodeOutside : ∀ {i a}, (c.threads i).ownedNode = some a → a ∉ L
  lockOutside : ∀ {i l}, (c.threads i).ownedLock c.shared = some l →
    ∀ a ∈ L, c.shared.lockAt a ≠ some l
  nodeDisjoint : ∀ {i j a}, (c.threads i).ownedNode = some a →
    (c.threads j).ownedNode = some a → i = j
  lockDisjoint : ∀ {i j l}, (c.threads i).ownedLock c.shared = some l →
    (c.threads j).ownedLock c.shared = some l → i = j

variable [DecidableEq α] {L : List α} {c c' : Conf ι (NodeList ι α) (Worker α)}

theorem inv_initial (values : ι → List Int) (d l : α) : Inv [d] (initial values d l) where
  chain := .singleton (by simp [NodeList.link, initial, initList])
  first := rfl
  knows _ := True.intro
  locks := by
    intro a ha
    obtain rfl := List.mem_singleton.mp ha
    refine ⟨none, ?_, ?_⟩
    · simp [NodeList.mutexOf, NodeList.lockAt, initial, initList]
    · intro i
      simp [initial, Worker.held]
  lockInj := by
    intro a b ha hb _
    rw [List.mem_singleton.mp ha, List.mem_singleton.mp hb]
  nodeOutside := nofun
  lockOutside := nofun
  nodeDisjoint := nofun
  lockDisjoint := nofun

theorem Inv.ready (hI : Inv L c) (i : ι) : Ready i c.shared L (c.threads i) where
  chain := hI.chain
  first := hI.first
  knows := hI.knows i
  nodeOutside := hI.nodeOutside
  lockOutside := hI.lockOutside
  lockInj := hI.lockInj
  locks := by
    intro a ha
    obtain ⟨m, hm, hown⟩ := hI.locks ha
    exact ⟨m, hm, hown i⟩

/-- Two threads do not hold the lock of one node. -/
theorem Inv.holder_unique (hI : Inv L c) {i j : ι} {a : α} (hi : a ∈ (c.threads i).held)
    (hj : a ∈ (c.threads j).held) : i = j := by
  obtain ⟨m, -, hown⟩ := hI.locks ((hI.knows i).held_mem hi)
  have hmi := (hown i).mp (decide_eq_true hi)
  have hmj := (hown j).mp (decide_eq_true hj)
  exact Option.some.inj (hmi.symm.trans hmj)

/-- Nobody holds a lock that is free. -/
theorem Inv.not_held (hI : Inv L c) {i : ι} {a : α} (ha : c.shared.mutexOf a = some none) :
    a ∉ (c.threads i).held := by
  intro hi
  obtain ⟨m, hm, hown⟩ := hI.locks ((hI.knows i).held_mem hi)
  rw [(hown i).mp (decide_eq_true hi), ha] at hm
  cases hm

omit [DecidableEq α] in
theorem Worker.ownedLock_congr {s s' : NodeList ι α} {w : Worker α}
    (h : ∀ {a}, w.ownedNode = some a → s'.nodes a = s.nodes a) :
    w.ownedLock s' = w.ownedLock s := by
  have hlock : ∀ {a}, w.ownedNode = some a → s'.lockAt a = s.lockAt a := by
    intro a ha
    rw [NodeList.lockAt, NodeList.lockAt, h ha]
  obtain ⟨pc, values⟩ := w
  cases pc with
  | idle => rfl
  | addToList v p =>
      cases p with
      | create current next p =>
          cases p with
          | malloc | mallocLock n | storeLock n l => rfl
          | loadLock n | initLock n l | storeValue n | storeNext n => exact hlock rfl
      | storeNext current n => exact hlock rfl
      | _ => rfl

/-- The step of a thread leaves another one's things alone. -/
theorem Inv.untouched {L' : List α} {i j : ι} (hI : Inv L c) (hij : j ≠ i)
    (heff : Effect c.shared c'.shared L L' (c.threads i)) :
    Untouched c.shared c'.shared L L' (c.threads j) where
  head := heff.head
  mem := by
    intro a ha
    obtain ⟨xs, rfl⟩ := heff.grows
    exact List.mem_append_left xs ha
  lockAt := heff.lockAt
  link := heff.link
  null ha := heff.null ((hI.knows j).held_mem ha) fun hi => hij (hI.holder_unique ha hi)
  node ha := heff.node (hI.nodeOutside ha) (fun hi => hij (hI.nodeDisjoint ha hi))
    ((hI.knows j).node_allocated ha)
  mutex hl := heff.mutex (hI.lockOutside hl) (fun hi => hij (hI.lockDisjoint hl hi))
    ((hI.knows j).lock_allocated hl)

variable [DecidableEq ι]

/-- **One step** keeps the invariant, with the chain that the mover leaves. -/
theorem Inv.step {i : ι} {m : Malloc ι α} (hI : Inv L c)
    (h : c.step (worker i m) i = some c') :
    ∃ L', Inv L' c' ∧ StepSpec i c.shared c'.shared L L' (c.threads i) (c'.threads i) := by
  obtain ⟨L', hspec⟩ := worker_step (hI.ready i) (Conf.step_mover h)
  have heff := hspec.effect
  have hsame := fun {j} (hj : j ≠ i) => Conf.step_threads_ne h hj
  have hlock : ∀ {j}, j ≠ i →
      (c.threads j).ownedLock c'.shared = (c.threads j).ownedLock c.shared :=
    fun hj => Worker.ownedLock_congr (hI.untouched hj heff).node
  refine ⟨L', ⟨heff.chain, ?first, ?knows, ?locks, ?lockInj, ?nodeOutside, ?lockOutside,
    ?nodeDisjoint, ?lockDisjoint⟩, hspec⟩
  case first =>
    obtain ⟨xs, rfl⟩ := heff.grows
    rw [List.head?_append, hI.first, heff.head]
    rfl
  case knows =>
    refine Conf.step_forall (A := fun s w => w.Knows s L') h hspec.knows ?_
    intro j hj
    exact (hI.knows j).frame (hI.ready i).head_mem (hI.untouched hj heff)
  case locks =>
    intro a ha
    by_cases hold : a ∈ L
    · obtain ⟨m₀, m₁, hm₀, hm₁, hmove⟩ := hspec.locks a hold
      obtain ⟨m, hm, hown⟩ := hI.locks hold
      obtain rfl := Option.some.inj (hm₀.symm.trans hm)
      exact ⟨m₁, hm₁, hmove.holder hown rfl rfl fun j hj => by rw [hsame hj]⟩
    · obtain ⟨-, -, hfree⟩ := heff.fresh ha hold
      refine ⟨none, hfree, fun j => ⟨fun hj => ?_, nofun⟩⟩
      by_cases hji : j = i
      · subst hji
        exact absurd (hspec.held (of_decide_eq_true hj)) hold
      · rw [hsame hji] at hj
        exact absurd ((hI.knows j).held_mem (of_decide_eq_true hj)) hold
  case lockInj =>
    -- the lock of a new node is not that of an old one
    have hfresh : ∀ {a b}, a ∈ L' → a ∉ L → b ∈ L →
        c'.shared.lockAt a ≠ c'.shared.lockAt b := by
      intro a b ha hna hb heq
      obtain ⟨m, hm, -⟩ := hI.locks hb
      obtain ⟨l, hl, -⟩ := Option.bind_eq_some_iff.mp hm
      rw [(heff.fresh ha hna).2.1, heff.lockAt hb, hl] at heq
      exact hI.lockOutside heq b hb hl
    intro a b ha hb heq
    by_cases hoa : a ∈ L
    · by_cases hob : b ∈ L
      · rw [heff.lockAt hoa, heff.lockAt hob] at heq
        exact hI.lockInj hoa hob heq
      · exact absurd heq.symm (hfresh hb hob hoa)
    · by_cases hob : b ∈ L
      · exact absurd heq (hfresh ha hoa hob)
      · have hna := (heff.fresh ha hoa).1
        exact Option.some.inj (hna.symm.trans (heff.fresh hb hob).1)
  case nodeOutside =>
    intro j a ha hmem
    by_cases hj : j = i
    · subst hj
      exact (hspec.ownedNode ha).1 hmem
    · rw [hsame hj] at ha
      have hnew := heff.fresh hmem (hI.nodeOutside ha)
      exact hj (hI.nodeDisjoint ha hnew.1)
  case lockOutside =>
    intro j l hl a ha hla
    by_cases hj : j = i
    · subst hj
      exact (hspec.ownedLock hl).1 a ha hla
    · rw [hsame hj, hlock hj] at hl
      by_cases hold : a ∈ L
      · exact hI.lockOutside hl a hold ((heff.lockAt hold).symm.trans hla)
      · have hnew := (heff.fresh ha hold).2.1
        exact hj (hI.lockDisjoint hl (hnew.symm.trans hla))
  case nodeDisjoint =>
    refine Conf.step_disjoint (fun _ w => w.ownedNode) h hI.nodeDisjoint (fun _ _ => rfl) ?_
    intro a ha
    rcases (hspec.ownedNode ha).2 with hown | hfree
    · exact .inl hown
    · exact .inr fun j hj => (hI.knows j).node_allocated hj hfree
  case lockDisjoint =>
    refine Conf.step_disjoint (fun s w => w.ownedLock s) h hI.lockDisjoint (fun j hj => hlock hj) ?_
    intro l hl
    rcases (hspec.ownedLock hl).2 with hown | hfree
    · exact .inl hown
    · exact .inr fun j hj => (hI.knows j).lock_allocated hj hfree

end CAdvanced.LinkedList
