import CAdvanced.LinkedList.Invariant

/-!
# LinkedList — Order

Nobody overtakes on the list: the threads between the lock of the head node and
the link of their new node stand in a line, each further on than those that
came after it, because a thread moves on only to a node whose lock is free.
What is linked is the value of the first in line, so the values stand on the
list in the order in which their calls took the lock of the head node.
-/

namespace CAdvanced.LinkedList

open Interleave System Heap

variable {ι α : Type}

/-! ## What a run shows -/

/-- The thread that takes the lock of the head node, with its value. -/
def entered (m : Move ι α) (c : Conf ι (NodeList ι α) (Worker α)) : Option (ι × Int) :=
  (c.threads m.tid).enters.map fun v => (m.tid, v)

/-- The thread that links a new node, with its value. -/
def linked (m : Move ι α) (c : Conf ι (NodeList ι α) (Worker α)) : Option (ι × Int) :=
  (c.threads m.tid).links.map fun v => (m.tid, v)

/-- The values that a thread has still to link. -/
def Worker.unlinked : Worker α → List Int
  | ⟨.idle, values⟩ => values
  | ⟨.addToList _ (.loadLockLast _), values⟩ | ⟨.addToList _ (.unlockLast _ _), values⟩ => values
  | ⟨.addToList v _, values⟩ => v :: values

/-! ## The line -/

section Line
variable [DecidableEq α]

/-- How far a waiting thread has come. -/
def Worker.position (L : List α) (w : Worker α) : Nat := w.waits.elim 0 fun p => L.idxOf p.1

theorem Worker.position_eq {L : List α} {w : Worker α} {a : α} {v : Int}
    (h : w.waits = some (a, v)) : w.position L = L.idxOf a := by
  rw [Worker.position, h]
  rfl

/-- The waiting threads in line, with their values. -/
structure Line (L : List α) (c : Conf ι (NodeList ι α) (Worker α)) (x : List (ι × Int)) :
    Prop where
  mem : ∀ {i v}, (i, v) ∈ x ↔ ∃ a, (c.threads i).waits = some (a, v)
  order : x.Pairwise fun p q =>
    (c.threads q.1).position L < (c.threads p.1).position L

variable {L L' : List α} {c c' : Conf ι (NodeList ι α) (Worker α)} {x : List (ι × Int)} {i : ι}

/-- Everybody in line stands at a node of the chain, and holds its lock. -/
theorem Line.place (hx : Line L c x) (hI : Inv L c) {p : ι × Int} (hp : p ∈ x) :
    ∃ a ∈ L, (c.threads p.1).position L = L.idxOf a ∧ a ∈ (c.threads p.1).held
      ∧ (c.threads p.1).waits = some (a, p.2) := by
  obtain ⟨a, ha⟩ := hx.mem.mp hp
  have hheld := Worker.held_of_waits ha
  exact ⟨a, (hI.knows p.1).held_mem hheld, Worker.position_eq ha, hheld, ha⟩

/-- A thread that stays where it is keeps its position while the chain grows. -/
theorem Line.position_grows (hx : Line L c x) (hI : Inv L c) (hgrows : ∃ xs, L' = L ++ xs)
    {p : ι × Int} (hp : p ∈ x) (hstay : (c'.threads p.1).waits = (c.threads p.1).waits) :
    (c'.threads p.1).position L' = (c.threads p.1).position L := by
  obtain ⟨a, ha, hpos, -, hw⟩ := hx.place hI hp
  obtain ⟨xs, rfl⟩ := hgrows
  rw [hpos, Worker.position_eq (hstay.trans hw), List.idxOf_append_of_mem ha]

theorem Line.stay (hx : Line L c x) (hI : Inv L c) (hgrows : ∃ xs, L' = L ++ xs)
    (hstay : ∀ j, (c'.threads j).waits = (c.threads j).waits) : Line L' c' x where
  mem := by
    intro j v
    rw [hstay j]
    exact hx.mem
  order := by
    refine hx.order.imp_of_mem ?_
    intro p q hp hq hlt
    rw [hx.position_grows hI hgrows hp (hstay p.1), hx.position_grows hI hgrows hq (hstay q.1)]
    exact hlt

/-- A thread that takes the lock of the head node comes to the end of the line. -/
theorem Line.enter (hx : Line L c x) (hI : Inv L c) (hI' : Inv L' c')
    (hgrows : ∃ xs, L' = L ++ xs) {v : Int} (hfree : c.shared.mutexOf c.shared.head = some none)
    (hhead : c'.shared.head = c.shared.head) (hnone : (c.threads i).waits = none)
    (hsome : (c'.threads i).waits = some (c.shared.head, v))
    (hstay : ∀ j, j ≠ i → (c'.threads j).waits = (c.threads j).waits) :
    Line L' c' (x ++ [(i, v)]) := by
  have hout : ∀ {u}, (i, u) ∉ x := by
    intro u hu
    obtain ⟨a, ha⟩ := hx.mem.mp hu
    rw [hnone] at ha
    cases ha
  have hne : ∀ {p}, p ∈ x → p.1 ≠ i := by
    rintro p hp rfl
    exact hout hp
  refine ⟨?_, List.pairwise_append.mpr ⟨?_, List.pairwise_singleton _ _, ?_⟩⟩
  · intro j u
    rw [List.mem_append, List.mem_singleton, hx.mem, Prod.mk.injEq]
    by_cases hj : j = i
    · subst hj
      rw [hnone, hsome]
      simp
      exact eq_comm
    · rw [hstay j hj]
      simp [hj]
  · refine hx.order.imp_of_mem ?_
    intro p q hp hq hlt
    rw [hx.position_grows hI hgrows hp (hstay _ (hne hp)),
      hx.position_grows hI hgrows hq (hstay _ (hne hq))]
    exact hlt
  · -- the others have left the head node, for its lock was free
    intro p hp q hq
    obtain rfl := List.mem_singleton.mp hq
    obtain ⟨a, ha, hpos, hheld, -⟩ := hx.place hI hp
    rw [hx.position_grows hI hgrows hp (hstay _ (hne hp)), hpos, Worker.position_eq hsome]
    have hzero : L'.idxOf c.shared.head = 0 :=
      (IsChain.idxOf_eq_zero hI'.first (List.mem_of_head? (hhead ▸ hI'.first))).mpr hhead.symm
    have hpos' : L.idxOf a ≠ 0 := by
      intro h0
      rw [(IsChain.idxOf_eq_zero hI.first ha).mp h0] at hheld
      exact hI.not_held hfree hheld
    omega

/-- A thread that moves on to a free node stays behind those before it. -/
theorem Line.advance (hx : Line L c x) (hI : Inv L c) (hgrows : ∃ xs, L' = L ++ xs) {a b : α}
    {v : Int} (hlink : c.shared.link a = some (some b)) (hfree : c.shared.mutexOf b = some none)
    (ha : (c.threads i).waits = some (a, v)) (hb : (c'.threads i).waits = some (b, v))
    (hstay : ∀ j, j ≠ i → (c'.threads j).waits = (c.threads j).waits) : Line L' c' x := by
  have hmem : a ∈ L := (hI.knows i).held_mem (Worker.held_of_waits ha)
  have hbmem := (hI.chain.next_mem hmem hlink).1
  have hold : (c.threads i).position L = L.idxOf a := Worker.position_eq ha
  have hnew : (c'.threads i).position L' = L.idxOf a + 1 := by
    obtain ⟨xs, rfl⟩ := hgrows
    rw [Worker.position_eq hb, List.idxOf_append_of_mem hbmem, hI.chain.idxOf_next hmem hlink]
  refine ⟨?_, hx.order.imp_of_mem ?_⟩
  · intro j u
    rw [hx.mem]
    by_cases hj : j = i
    · subst hj
      rw [ha, hb]
      simp
    · rw [hstay j hj]
  · intro p q hp hq hlt
    by_cases hpi : p.1 = i
    · by_cases hqi : q.1 = i
      · rw [hpi, hqi] at hlt
        exact absurd hlt (Nat.lt_irrefl _)
      · rw [hx.position_grows hI hgrows hq (hstay _ hqi), hpi, hnew]
        rw [hpi, hold] at hlt
        omega
    · rw [hx.position_grows hI hgrows hp (hstay _ hpi)]
      by_cases hqi : q.1 = i
      · -- `p` is before `i`, and not at `b`
        rw [hqi, hold] at hlt
        rw [hqi, hnew]
        obtain ⟨d, hd, hpos, hheld, -⟩ := hx.place hI hp
        have hdb : L.idxOf d ≠ L.idxOf a + 1 := by
          rw [← hI.chain.idxOf_next hmem hlink]
          intro heq
          rw [(List.idxOf_inj hd).mp heq] at hheld
          exact hI.not_held hfree hheld
        omega
      · rw [hx.position_grows hI hgrows hq (hstay _ hqi)]
        exact hlt

/-- A thread at the last node is the first in line. -/
theorem Line.leave (hx : Line L c x) (hI : Inv L c) (hgrows : ∃ xs, L' = L ++ xs) {a : α}
    {v : Int} (hnull : c.shared.link a = some none) (ha : (c.threads i).waits = some (a, v))
    (hnone : (c'.threads i).waits = none)
    (hstay : ∀ j, j ≠ i → (c'.threads j).waits = (c.threads j).waits) :
    ∃ y, x = (i, v) :: y ∧ Line L' c' y := by
  have hmem : a ∈ L := (hI.knows i).held_mem (Worker.held_of_waits ha)
  have hlast := hI.chain.idxOf_last hmem hnull
  have hpos : (c.threads i).position L = L.idxOf a := Worker.position_eq ha
  have hin : (i, v) ∈ x := hx.mem.mpr ⟨a, ha⟩
  obtain ⟨p, y, rfl⟩ := List.exists_cons_of_ne_nil (List.ne_nil_of_mem hin)
  obtain ⟨hbehind, horder⟩ := List.pairwise_cons.mp hx.order
  have hfirst : (i, v) = p := by
    refine (List.mem_cons.mp hin).resolve_right ?_
    intro hiny
    have hlt : (c.threads i).position L < (c.threads p.1).position L := hbehind _ hiny
    obtain ⟨d, hd, hd', -⟩ := hx.place hI (List.mem_cons_self ..)
    have := List.idxOf_lt_length_of_mem hd
    omega
  subst hfirst
  have hout : ∀ {u}, (i, u) ∉ y := fun hu => absurd (hbehind _ hu) (Nat.lt_irrefl _)
  have hne : ∀ {p}, p ∈ y → p.1 ≠ i := by
    rintro p hp rfl
    exact hout hp
  refine ⟨y, rfl, ?_, horder.imp_of_mem ?_⟩
  · intro j u
    by_cases hj : j = i
    · subst hj
      rw [hnone]
      simp [hout]
    · rw [hstay j hj, ← hx.mem]
      simp [hj]
  · intro p q hp hq hlt
    rw [hx.position_grows hI hgrows (List.mem_cons_of_mem _ hp) (hstay _ (hne hp)),
      hx.position_grows hI hgrows (List.mem_cons_of_mem _ hq) (hstay _ (hne hq))]
    exact hlt

end Line

/-! ## Steps and runs -/

/-- The four ways in which a step moves its thread. -/
theorem Walks.cases {s : NodeList ι α} {e l : Option Int} {p p' : Option (α × Int)}
    (h : Walks s e l p p') :
    (e = none ∧ l = none ∧ p' = p)
    ∨ (∃ v, e = some v ∧ l = none ∧ p = none ∧ p' = some (s.head, v)
        ∧ s.mutexOf s.head = some none)
    ∨ (∃ a b v, e = none ∧ l = none ∧ p = some (a, v) ∧ p' = some (b, v)
        ∧ s.link a = some (some b) ∧ s.mutexOf b = some none)
    ∨ (∃ a v, e = none ∧ l = some v ∧ p = some (a, v) ∧ p' = none
        ∧ s.link a = some none) := by
  cases h with
  | stay => exact .inl ⟨rfl, rfl, rfl⟩
  | enter hfree => exact .inr (.inl ⟨_, rfl, rfl, rfl, rfl, hfree⟩)
  | advance hlink hfree => exact .inr (.inr (.inl ⟨_, _, _, rfl, rfl, rfl, rfl, hlink, hfree⟩))
  | leave hnull => exact .inr (.inr (.inr ⟨_, _, rfl, rfl, rfl, rfl, hnull⟩))

variable [DecidableEq ι] [DecidableEq α]

/-- **One step** of the line: it is entered at the end and left in front. -/
theorem Line.step {L L' : List α} {c c' : Conf ι (NodeList ι α) (Worker α)} {m : Move ι α}
    {x : List (ι × Int)} (hx : Line L c x) (hI : Inv L c) (hI' : Inv L' c')
    (h : c.step (worker m.tid m.malloc) m.tid = some c')
    (hspec : StepSpec m.tid c.shared c'.shared L L' (c.threads m.tid) (c'.threads m.tid)) :
    ∃ y, Line L' c' y ∧ x ++ (entered m c).toList = (linked m c).toList ++ y := by
  have hgrows := hspec.effect.grows
  have hstay : ∀ j, j ≠ m.tid → (c'.threads j).waits = (c.threads j).waits := by
    intro j hj
    rw [Conf.step_threads_ne h hj]
  rw [entered, linked]
  rcases hspec.walks.cases with ⟨he, hl, hp⟩ | ⟨v, he, hl, hp, hp', hfree⟩
    | ⟨a, b, v, he, hl, hp, hp', hlink, hfree⟩ | ⟨a, v, he, hl, hp, hp', hnull⟩
  · refine ⟨x, hx.stay hI hgrows ?_, ?_⟩
    · intro j
      by_cases hj : j = m.tid
      · rw [hj, hp]
      · exact hstay j hj
    · rw [he, hl]
      exact List.append_nil x
  · refine ⟨_, hx.enter hI hI' hgrows hfree hspec.effect.head hp hp' hstay, ?_⟩
    rw [he, hl]
    rfl
  · refine ⟨x, hx.advance hI hgrows hlink hfree hp hp' hstay, ?_⟩
    rw [he, hl]
    exact List.append_nil x
  · obtain ⟨y, rfl, hy⟩ := hx.leave hI hgrows hnull hp hp' hstay
    refine ⟨y, hy, ?_⟩
    rw [he, hl]
    exact List.append_nil _

/-- Those who have entered are those who have linked, and the line. -/
theorem line_balance (values : ι → List Int) (d l : α) {ls : List (Move ι α)}
    {c : Conf ι (NodeList ι α) (Worker α)} (h : (program values d l).Reaches ls c) :
    ∃ y, (program values d l).trace entered ls (initial values d l)
      = (program values d l).trace linked ls (initial values d l) ++ y := by
  have hbalance := trace_balance (S := program values d l) (p := entered) (q := linked)
    (G := fun c x => ∃ L, Inv L c ∧ Line L c x) ?_
    ⟨[d], inv_initial values d l, ⟨by simp [initial, Worker.waits], List.Pairwise.nil⟩⟩ h
  · obtain ⟨y, -, heq⟩ := hbalance
    exact ⟨y, heq⟩
  · rintro m c c' x ⟨L, hI, hx⟩ hstep
    obtain ⟨L', hI', hspec⟩ := hI.step hstep
    obtain ⟨y, hy, heq⟩ := hx.step hI hI' hstep hspec
    exact ⟨y, ⟨L', hI', hy⟩, heq⟩

/-- The values behind the head node are the linked ones. -/
theorem values_balance (values : ι → List Int) (d l : α) {ls : List (Move ι α)}
    {c : Conf ι (NodeList ι α) (Worker α)} (h : (program values d l).Reaches ls c) :
    ∃ L, Inv L c ∧ L.tail.map c.shared.valueAt
      = ((program values d l).trace linked ls (initial values d l)).map fun e => some e.2 := by
  have hbalance := trace_balance (S := program values d l) (p := linked)
    (q := fun _ _ => none)
    (G := fun c x => ∃ L, Inv L c ∧ L.tail.map c.shared.valueAt = x.map fun e => some e.2)
    (x := []) ?_
    ⟨[d], inv_initial values d l, rfl⟩ h
  · obtain ⟨y, ⟨L, hI, hy⟩, heq⟩ := hbalance
    rw [trace_none, List.nil_append, List.nil_append] at heq
    exact ⟨L, hI, heq ▸ hy⟩
  · rintro m c c' x ⟨L, hI, hx⟩ hstep
    obtain ⟨L', hI', hspec⟩ := hI.step hstep
    refine ⟨x ++ (linked m c).toList, ⟨L', hI', ?_⟩, rfl⟩
    rw [hspec.effect.values, hx, List.map_append, linked]
    cases (c.threads m.tid).links <;> rfl

omit [DecidableEq ι] in
/-- A step links the first value that its thread has still to link, or none. -/
theorem worker_unlinked {i : ι} {m : Malloc ι α} {s s' : NodeList ι α} {w w' : Worker α}
    (h : worker i m s w = some (s', w')) : w.unlinked = w.links.toList ++ w'.unlinked := by
  obtain ⟨pc, values⟩ := w
  cases pc with
  | idle =>
      cases values with
      | nil => cases h
      | cons v values => cases h; rfl
  | addToList v p =>
      simp only [worker, Option.map_eq_some_iff, Prod.mk.injEq, Prod.exists] at h
      obtain ⟨s', k, hk, rfl, rfl⟩ := h
      cases p with
      | loadHead => cases hk; rfl
      | testNext current | whileNext current =>
          simp only [addToList, Option.map_eq_some_iff, Prod.mk.injEq] at hk
          obtain ⟨n, -, -, rfl⟩ := hk
          split <;> rfl
      | loadNext current =>
          simp only [addToList, Option.bind_eq_some_iff, Option.map_eq_some_iff,
            Prod.mk.injEq] at hk
          obtain ⟨n, -, b, -, -, rfl⟩ := hk
          rfl
      | create current next p =>
          simp only [addToList, Option.map_eq_some_iff, Prod.mk.injEq] at hk
          obtain ⟨⟨s₁, r⟩, -, -, rfl⟩ := hk
          cases r <;> rfl
      | loadLock current | lock current l | loadLockNext previous current
      | lockNext previous current l | loadLockPrevious previous current
      | unlockPrevious previous current l | loadNextArg current | storeNext current n
      | loadLockLast current | unlockLast current l =>
          simp only [addToList, Option.map_eq_some_iff, Prod.mk.injEq] at hk
          obtain ⟨_, -, -, rfl⟩ := hk
          rfl

/-- The values of one thread are linked in program order. -/
theorem program_order (values : ι → List Int) (d l : α) {ls : List (Move ι α)}
    {c : Conf ι (NodeList ι α) (Worker α)} (h : (program values d l).Reaches ls c) (i : ι) :
    values i = ((program values d l).trace linked ls (initial values d l)).filterMap
        (fun e => if e.1 = i then some e.2 else none) ++ (c.threads i).unlinked := by
  rw [trace_filterMap]
  have hbalance := trace_balance (S := program values d l) (p := fun _ _ => none)
    (q := fun m c => (linked m c).bind fun e => if e.1 = i then some e.2 else none)
    (G := fun c x => x = (c.threads i).unlinked) ?_ rfl h
  · obtain ⟨_, rfl, heq⟩ := hbalance
    rw [trace_none, List.append_nil] at heq
    exact heq
  · rintro m c c' _ rfl hstep
    refine ⟨_, rfl, (List.append_nil _).trans ?_⟩
    by_cases hm : m.tid = i
    · have hw := worker_unlinked (Conf.step_mover hstep)
      rw [hm] at hw
      rw [hw, linked, hm]
      cases (c.threads i).links <;> simp
    · rw [Conf.step_threads_ne hstep (Ne.symm hm), linked]
      cases (c.threads m.tid).links <;> simp [hm]

/-- **The list under hand-over-hand locking.** In every reachable state the
chain from the head node is finite, without repetition and ends in NULL; the
values behind the head node are the linked ones, in link order; the calls that
have linked are the first ones of those that took the lock of the head node,
in that order; and each thread's values stand in its program order. -/
theorem linked_list_in_lock_order (values : ι → List Int) (d l : α) {ls : List (Move ι α)}
    {c : Conf ι (NodeList ι α) (Worker α)} (h : (program values d l).Reaches ls c) :
    ∃ L, IsChain c.shared.link (c.shared.head :: L)
      ∧ L.map c.shared.valueAt
        = ((program values d l).trace linked ls (initial values d l)).map (fun e => some e.2)
      ∧ (program values d l).trace linked ls (initial values d l)
        <+: (program values d l).trace entered ls (initial values d l)
      ∧ ∀ i, values i = ((program values d l).trace linked ls (initial values d l)).filterMap
        (fun e => if e.1 = i then some e.2 else none) ++ (c.threads i).unlinked := by
  obtain ⟨L, hI, hvalues⟩ := values_balance values d l h
  obtain ⟨y, hline⟩ := line_balance values d l h
  obtain ⟨L, rfl⟩ := List.head?_eq_some_iff.mp hI.first
  exact ⟨L, hI.chain, hvalues, ⟨y, hline.symm⟩, program_order values d l h⟩

/-- Thread 1 has read the head first, but thread 0 took its lock first and has
linked its 5; thread 1 stands behind it, at the new last node. -/
theorem linked_list_in_lock_order_behind :
    ∃ (ls : List (Move (Fin 2) Nat)) (c : Conf (Fin 2) (NodeList (Fin 2) Nat) (Worker Nat))
      (L : List Nat),
      (program (fun i => if i = 0 then [5] else [7]) 0 0).Reaches ls c
      ∧ (c.threads 1).pc = .addToList 7 (.storeNext 1 2)
      ∧ IsChain c.shared.link (c.shared.head :: L)
      ∧ L.map c.shared.valueAt
        = ((program (fun i => if i = 0 then [5] else [7]) 0 0).trace linked ls
          (initial (fun i => if i = 0 then [5] else [7]) 0 0)).map (fun e => some e.2) := by
  let move (i : Fin 2) (a : Nat) : Move (Fin 2) Nat := ⟨i, a, ⟨9, some 9, 9⟩, some 1⟩
  obtain ⟨c, hrun, hc⟩ := Option.any_eq_true _ _ |>.mp
    (show (((program (fun i => if i = 0 then [5] else [7]) 0 0).exec
        (List.replicate 3 (move 1 2) ++ List.replicate 15 (move 0 1)
          ++ List.replicate 17 (move 1 2))
        (initial (fun i => if i = 0 then [5] else [7]) 0 0)).any fun c =>
      (c.threads 1).pc = .addToList 7 (.storeNext 1 2)) = true by decide +kernel)
  obtain ⟨L, hchain, hvalues, -, -⟩ := linked_list_in_lock_order _ 0 0 hrun
  exact ⟨_, c, L, hrun, of_decide_eq_true hc, hchain, hvalues⟩

end CAdvanced.LinkedList
