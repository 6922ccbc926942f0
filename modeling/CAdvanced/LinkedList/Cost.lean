import CAdvanced.LinkedList.Order
import CAdvanced.LinkedList.Progress
import CAdvanced.Interleave.Termination
import Mathlib.Tactic.Ring

/-!
# LinkedList — Cost

What hand-over-hand locking costs. A call of `addToList` walks from the head node to the
last one whatever the others do, so the call that links the k-th node makes its way past
k - 1 of them: the schedule decides who links when, but not how many steps there are. All
runs to the end are of the same length, quadratic in the number of values.
-/

namespace CAdvanced.LinkedList

open Interleave System Heap

variable {ι α : Type}

/-! ## The clock of a call -/

/-- The steps of `initNode` up to a point. -/
def InitNode.done : InitNode α → Nat
  | .malloc => 0
  | .mallocLock _ => 1
  | .storeLock _ _ => 2
  | .loadLock _ => 3
  | .initLock _ _ => 4
  | .storeValue _ => 5
  | .storeNext _ => 6

/-- The steps of a call up to `initNode` behind the node at position `k`: behind the head
node, it does not enter the loop. -/
def walk (k : Nat) : Nat := if k = 0 then 5 else 7 + 6 * k

section Clock
variable [DecidableEq α]

/-- The steps of a call up to a point before the link, and from the link on those that are
left, negative; two more in either case. -/
def Worker.clock (L : List α) : Worker α → Nat
  | ⟨.idle, _⟩ => 2
  | ⟨.addToList _ p, _⟩ => match p with
    | .loadHead => 3
    | .loadLock _ => 4
    | .lock _ _ => 5
    | .testNext _ => 6
    | .whileNext current => 7 + 6 * L.idxOf current
    | .loadNext current | .loadNextArg current => 8 + 6 * L.idxOf current
    | .loadLockNext previous _ => 9 + 6 * L.idxOf previous
    | .lockNext previous _ _ => 10 + 6 * L.idxOf previous
    | .loadLockPrevious previous _ => 11 + 6 * L.idxOf previous
    | .unlockPrevious previous _ _ => 12 + 6 * L.idxOf previous
    | .create current _ p => 2 + walk (L.idxOf current) + p.done
    | .storeNext current _ => 9 + walk (L.idxOf current)
    | .loadLockLast _ => 0
    | .unlockLast _ _ => 1

/-- The steps of the calls that have linked `n` nodes. -/
def cost : Nat → Nat
  | 0 => 0
  | n + 1 => cost n + (10 + walk n)

theorem cost_eq (n : Nat) : cost n = 3 * n ^ 2 + 14 * n - 2 := by
  cases n with
  | zero => rfl
  | succ n =>
      induction n with
      | zero => rfl
      | succ n ih =>
          rw [cost, ih, walk, if_neg n.succ_ne_zero]
          have hsq : 3 * (n + 1 + 1) ^ 2 = 3 * (n + 1) ^ 2 + 6 * n + 9 := by ring
          omega

theorem cost_mono {m n : Nat} (h : m ≤ n) : cost m ≤ cost n :=
  monotone_nat_of_le_succ (fun _ => Nat.le_add_right _ _) h

/-- Where a call stands, says more than where its thread stands: who is still at the first
test is at the head node, and whoever has reached the end of the list in the loop is not. -/
def Worker.Started (s : NodeList ι α) : Worker α → Prop
  | ⟨.addToList _ (.testNext current), _⟩ => current = s.head
  | ⟨.addToList _ (.whileNext current), _⟩ =>
      current = s.head → ∃ b, s.link current = some (some b)
  | ⟨.addToList _ (.loadNextArg current), _⟩ => current ≠ s.head
  | _ => True

/-! ## One step -/

variable {i : ι} {m : Malloc ι α} {s s' : NodeList ι α} {L L' : List α} {w w' : Worker α}

theorem initNode_clock {v : Int} {next : Option α} {p : InitNode α} {r : InitNode α ⊕ α}
    (h : initNode m v next s p = some (s', r)) :
    r.elim InitNode.done (fun _ => 7) = p.done + 1 := by
  cases p <;> simp only [initNode, Option.map_eq_some_iff, Prod.mk.injEq] at h <;>
    obtain ⟨_, -, -, rfl⟩ := h <;> rfl

/-- A step before or after the link moves the clock of its call by one. -/
theorem addToList_clock {v : Int} {p : AddToList α} {values : List Int} {k : Ctl (AddToList α)}
    (hR : Ready i s L ⟨.addToList v p, values⟩)
    (hS : Worker.Started s ⟨.addToList v p, values⟩) (h : addToList i m v s p = some (s', k))
    (hlinks : Worker.links ⟨.addToList v p, values⟩ = none) :
    Worker.clock L ⟨k.resume (.addToList v) .idle, values⟩
      = Worker.clock L ⟨.addToList v p, values⟩ + 1 := by
  have hknows := hR.knows
  have hhead : ∀ {a}, a ∈ L → (L.idxOf a = 0 ↔ a = s.head) :=
    fun ha => IsChain.idxOf_eq_zero hR.first ha
  cases p with
  | loadHead => cases h; rfl
  | testNext current =>
      simp only [addToList, Option.map_eq_some_iff, Prod.mk.injEq] at h
      obtain ⟨n, hn, rfl, rfl⟩ := h
      have hzero := (hhead hknows).mpr hS
      split
      · simp [Worker.clock, hzero, walk, InitNode.done]
      · simp [Worker.clock, hzero]
  | whileNext current =>
      simp only [addToList, Option.map_eq_some_iff, Prod.mk.injEq] at h
      obtain ⟨n, hn, rfl, rfl⟩ := h
      split <;> simp only [Ctl.resume_goto, Worker.clock] <;> omega
  | loadNext current =>
      simp only [addToList, Option.bind_eq_some_iff, Option.map_eq_some_iff,
        Prod.mk.injEq] at h
      obtain ⟨n, hn, b, hb, rfl, rfl⟩ := h
      simp only [Ctl.resume_goto, Worker.clock]
      omega
  | unlockPrevious previous current l =>
      simp only [addToList, Option.map_eq_some_iff, Prod.mk.injEq] at h
      obtain ⟨_, -, rfl, rfl⟩ := h
      have hnext := hR.chain.idxOf_next hknows.1 hknows.2.2.1
      simp only [Ctl.resume_goto, Worker.clock]
      omega
  | loadNextArg current =>
      simp only [addToList, Option.map_eq_some_iff, Prod.mk.injEq] at h
      obtain ⟨n, hn, rfl, rfl⟩ := h
      have hpos : L.idxOf current ≠ 0 := fun hzero => hS ((hhead hknows.1).mp hzero)
      simp only [Ctl.resume_goto, Worker.clock, walk, if_neg hpos, InitNode.done]
      omega
  | create current next p =>
      simp only [addToList, Option.map_eq_some_iff, Prod.mk.injEq] at h
      obtain ⟨⟨s₁, r⟩, hr, rfl, rfl⟩ := h
      have hdone := initNode_clock hr
      cases r with
      | inl p' =>
          simp only [Sum.elim_inl, Ctl.resume_goto, Worker.clock] at hdone ⊢
          omega
      | inr n =>
          simp only [Sum.elim_inr, Ctl.resume_goto, Worker.clock] at hdone ⊢
          omega
  | storeNext current n => cases hlinks
  | loadLock current | lock current l | loadLockNext previous current
  | lockNext previous current l | loadLockPrevious previous current
  | loadLockLast current | unlockLast current l =>
      simp only [addToList, Option.map_eq_some_iff, Prod.mk.injEq] at h
      obtain ⟨_, -, rfl, rfl⟩ := h
      simp only [Ctl.resume_goto, Ctl.resume_ret, Worker.clock]
      try omega

theorem addToList_started {v : Int} {p : AddToList α} {values : List Int}
    {k : Ctl (AddToList α)} (hR : Ready i s L ⟨.addToList v p, values⟩)
    (hS : Worker.Started s ⟨.addToList v p, values⟩) (h : addToList i m v s p = some (s', k))
    (hhead : s'.head = s.head) :
    Worker.Started s' ⟨k.resume (.addToList v) .idle, values⟩ := by
  have hknows := hR.knows
  cases p with
  | lock current l =>
      simp only [addToList, Option.map_eq_some_iff, Prod.mk.injEq] at h
      obtain ⟨_, -, rfl, rfl⟩ := h
      exact hknows.1.trans hhead.symm
  | testNext current =>
      simp only [addToList, Option.map_eq_some_iff, Prod.mk.injEq] at h
      obtain ⟨n, hn, rfl, rfl⟩ := h
      split
      case isTrue => exact True.intro
      case isFalse hnext =>
        obtain ⟨b, hb⟩ := Option.ne_none_iff_exists'.mp hnext
        intro _
        exact ⟨b, by rw [NodeList.link, hn, Option.map_some, hb]⟩
  | whileNext current =>
      simp only [addToList, Option.map_eq_some_iff, Prod.mk.injEq] at h
      obtain ⟨n, hn, rfl, rfl⟩ := h
      split
      case isTrue hnull =>
        intro hat
        obtain ⟨b, hb⟩ := hS hat
        rw [NodeList.link, hn, Option.map_some, hnull] at hb
        cases hb
      case isFalse => exact True.intro
  | unlockPrevious previous current l =>
      simp only [addToList, Option.map_eq_some_iff, Prod.mk.injEq] at h
      obtain ⟨_, -, rfl, rfl⟩ := h
      -- behind another node stands no head node
      intro hat
      have hnext := hR.chain.idxOf_next hknows.1 hknows.2.2.1
      have hzero := (IsChain.idxOf_eq_zero hR.first hknows.2.1).mpr (hat.trans hhead)
      omega
  | loadHead => cases h; exact True.intro
  | loadNext current =>
      simp only [addToList, Option.bind_eq_some_iff, Option.map_eq_some_iff,
        Prod.mk.injEq] at h
      obtain ⟨n, hn, b, hb, rfl, rfl⟩ := h
      exact True.intro
  | create current next p =>
      simp only [addToList, Option.map_eq_some_iff, Prod.mk.injEq] at h
      obtain ⟨⟨s₁, r⟩, -, rfl, rfl⟩ := h
      cases r <;> exact True.intro
  | loadLock current | loadLockNext previous current | lockNext previous current l
  | loadLockPrevious previous current | loadNextArg current | storeNext current n
  | loadLockLast current | unlockLast current l =>
      simp only [addToList, Option.map_eq_some_iff, Prod.mk.injEq] at h
      obtain ⟨_, -, rfl, rfl⟩ := h
      exact True.intro

omit [DecidableEq α] in
/-- The steps of the other threads do not change it. -/
theorem Worker.Started.frame (hS : w.Started s) (hknows : w.Knows s L)
    (heff : Effect s s' L L' w') : w.Started s' := by
  obtain ⟨pc, values⟩ := w
  cases pc with
  | idle => exact True.intro
  | addToList v p =>
      cases p with
      | testNext current => exact Eq.trans hS heff.head.symm
      | whileNext current =>
          intro hat
          obtain ⟨b, hb⟩ := hS (hat.trans heff.head)
          exact ⟨b, heff.link hknows hb⟩
      | loadNextArg current => exact fun hat => hS (hat.trans heff.head)
      | _ => exact True.intro

omit [DecidableEq α] in
/-- The chain grows by what is linked. -/
theorem Effect.length (heff : Effect s s' L L' w) (hL : L ≠ []) :
    L'.length = L.length + w.links.toList.length := by
  have hpos := List.length_pos_of_ne_nil hL
  have hlen := congrArg List.length heff.values
  obtain ⟨xs, rfl⟩ := heff.grows
  simp only [List.length_map, List.length_tail, List.length_append] at hlen ⊢
  omega

theorem Ready.ne_nil (hR : Ready i s L w) : L ≠ [] := by
  have := hR.head_mem
  rintro rfl
  cases this

/-- **One step** moves the clock of its thread by one, where the link ends a call that is
paid for. -/
theorem worker_clock (hR : Ready i s L w) (hS : w.Started s) (h : worker i m s w = some (s', w'))
    (heff : Effect s s' L L' w) :
    cost (L'.length - 1) + w'.clock L' = cost (L.length - 1) + w.clock L + 1
      ∧ w'.Started s' := by
  have hlen := heff.length hR.ne_nil
  obtain ⟨pc, values⟩ := w
  cases pc with
  | idle =>
      cases values with
      | nil => cases h
      | cons v values =>
          cases h
          obtain ⟨xs, rfl⟩ := heff.grows
          rw [hlen]
          exact ⟨rfl, True.intro⟩
  | addToList v p =>
      simp only [worker, Option.map_eq_some_iff, Prod.mk.injEq, Prod.exists] at h
      obtain ⟨s', k, hk, rfl, rfl⟩ := h
      refine ⟨?_, addToList_started hR hS hk heff.head⟩
      cases hlinks : Worker.links ⟨.addToList v p, values⟩ with
      | none =>
          have hsame : L' = L := by
            obtain ⟨xs, rfl⟩ := heff.grows
            rw [hlinks] at hlen
            simpa using hlen
          rw [hsame, addToList_clock hR hS hk hlinks, Nat.add_assoc]
      | some x =>
          -- the link, at the last node
          cases p with
          | storeNext current n =>
              simp only [addToList, Option.map_eq_some_iff, Prod.mk.injEq] at hk
              obtain ⟨_, -, rfl, rfl⟩ := hk
              have hknows := hR.knows
              have hlast := hR.chain.idxOf_last hknows.1 hknows.2.1
              rw [hlen, hlinks, ← hlast]
              simp only [Option.toList_some, List.length_singleton, Nat.add_sub_cancel, cost,
                Ctl.resume_goto, Worker.clock]
              omega
          | _ => cases hlinks

/-- Nodes that are linked behind it do not move a thread. -/
theorem Worker.Knows.clock_grows (h : w.Knows s L) (hgrows : ∃ xs, L' = L ++ xs) :
    w.clock L' = w.clock L := by
  obtain ⟨xs, rfl⟩ := hgrows
  have hidx : ∀ {a}, a ∈ L → (L ++ xs).idxOf a = L.idxOf a := List.idxOf_append_of_mem
  obtain ⟨pc, values⟩ := w
  cases pc with
  | idle => rfl
  | addToList v p =>
      cases p with
      | whileNext current => simp only [Worker.clock, hidx h]
      | loadNext current | loadNextArg current | loadLockNext previous current
      | lockNext previous current l | loadLockPrevious previous current
      | unlockPrevious previous current l | create current next p | storeNext current n =>
          simp only [Worker.clock, hidx h.1]
      | _ => rfl

omit [DecidableEq α] in
theorem InitNode.done_le (p : InitNode α) : p.done ≤ 6 := by
  cases p <;> simp [InitNode.done]

theorem Worker.clock_le (L : List α) (w : Worker α) : w.clock L ≤ 16 + 6 * L.length := by
  have hidx : ∀ a, L.idxOf a ≤ L.length := fun _ => List.idxOf_le_length
  have hwalk : ∀ a, walk (L.idxOf a) ≤ 7 + 6 * L.length := by
    intro a
    have := hidx a
    unfold walk
    split <;> omega
  obtain ⟨pc, values⟩ := w
  cases pc with
  | idle => simp only [Worker.clock]; omega
  | addToList v p =>
      cases p with
      | whileNext a | loadNext a | loadNextArg a | loadLockNext a b | lockNext a b l
      | loadLockPrevious a b | unlockPrevious a b l =>
          have := hidx a
          simp only [Worker.clock]
          omega
      | create a next p =>
          have := hwalk a
          have := p.done_le
          simp only [Worker.clock]
          omega
      | storeNext a n =>
          have := hwalk a
          simp only [Worker.clock]
          omega
      | _ => simp only [Worker.clock]; omega

/-! ## Runs -/

variable [DecidableEq ι] [Fintype ι] {c c' : Conf ι (NodeList ι α) (Worker α)}

/-- What a run keeps, with the chain `L`: each of the `V` values is linked or not yet. -/
structure Paid (V : Nat) (L : List α) (c : Conf ι (NodeList ι α) (Worker α)) : Prop where
  inv : Inv L c
  started : ∀ i, (c.threads i).Started c.shared
  values : L.length + total (fun w => w.unlinked.length) c.threads = V + 1

omit [DecidableEq ι] in
theorem paid_initial (values : ι → List Int) (d l : α) :
    Paid (∑ i, (values i).length) [d] (initial values d l) where
  inv := inv_initial values d l
  started _ := True.intro
  values := Nat.add_comm ..

/-- The clock of the program. -/
def clock (L : List α) (c : Conf ι (NodeList ι α) (Worker α)) : Int :=
  cost (L.length - 1) + total (Worker.clock L) c.threads - 2 * Fintype.card ι

theorem Paid.step {V : Nat} (hP : Paid V L c) {i : ι}
    (h : c.step (worker i m) i = some c') :
    ∃ L', Paid V L' c' ∧ clock L' c' = clock L c + 1 := by
  obtain ⟨L', hI', hspec⟩ := hP.inv.step h
  have heff := hspec.effect
  have hmover := Conf.step_mover h
  obtain ⟨hclock, hstarted⟩ := worker_clock (hP.inv.ready i) (hP.started i) hmover heff
  refine ⟨L', ⟨hI', ?_, ?_⟩, ?_⟩
  · refine Conf.step_forall (A := fun s w => w.Started s) h hstarted fun j _ => ?_
    exact (hP.started j).frame (hP.inv.knows j) heff
  · have hsum := Conf.total_step (fun w => w.unlinked.length) h
    have hlen := heff.length (hP.inv.ready i).ne_nil
    have hown := congrArg List.length (worker_unlinked hmover)
    have hvalues := hP.values
    rw [List.length_append] at hown
    omega
  · have hsum := Conf.total_step (Worker.clock L') h
    have hsame : total (Worker.clock L') c.threads = total (Worker.clock L) c.threads :=
      total_congr fun j => (hP.inv.knows j).clock_grows heff.grows
    rw [(hP.inv.knows i).clock_grows heff.grows, hsame] at hsum
    unfold clock
    omega

/-- A run has as many steps as its clock says. -/
theorem exists_paid (values : ι → List Int) (d l : α) {ls : List (Move ι α)}
    (h : (program values d l).Reaches ls c) :
    ∃ L, Paid (∑ i, (values i).length) L c ∧ clock L c = ls.length := by
  obtain ⟨L, hP, hclock⟩ := exec_clock (S := program values d l)
    (R := Paid (∑ i, (values i).length)) (g := clock) (fun hP hstep => hP.step hstep)
    (paid_initial values d l) h
  refine ⟨L, hP, hclock.trans ?_⟩
  have hzero : total (Worker.clock [d]) (initial values d l).threads = 2 * Fintype.card ι := by
    simp [total, initial, Worker.clock, Nat.mul_comm]
  simp only [clock, hzero, List.length_singleton, Nat.sub_self, cost]
  omega

/-- The run is over: nobody has anything left to add. -/
def Finished (c : Conf ι (NodeList ι α) (Worker α)) : Prop := ∀ i, c.threads i = ⟨.idle, []⟩

omit [DecidableEq ι] in
theorem Paid.cost_eq {V : Nat} (hP : Paid V L c) (hfinished : Finished c) :
    clock L c = cost V := by
  have hunlinked : total (fun w => w.unlinked.length) c.threads = 0 :=
    total_eq_zero fun i => by rw [hfinished i]; rfl
  have hidle : total (Worker.clock L) c.threads = 2 * Fintype.card ι := by
    have hsum : total (Worker.clock L) c.threads = total (fun _ => 2) c.threads :=
      total_congr fun i => by rw [hfinished i]; rfl
    rw [hsum]
    simp [total, Nat.mul_comm]
  have hvalues := hP.values
  rw [clock, hidle, show L.length - 1 = V by omega]
  omega

omit [DecidableEq ι] in
/-- A bound, if not the best one. -/
theorem Paid.clock_le {V : Nat} (hP : Paid V L c) :
    clock L c ≤ (cost V + Fintype.card ι * (16 + 6 * (V + 1)) : Nat) := by
  have hvalues := hP.values
  have hcost := cost_mono (show L.length - 1 ≤ V by omega)
  have hthreads : total (Worker.clock L) c.threads ≤ Fintype.card ι * (16 + 6 * (V + 1)) := by
    calc total (Worker.clock L) c.threads
        ≤ total (fun _ => 16 + 6 * (V + 1)) c.threads :=
          total_le_total fun i => (Worker.clock_le L _).trans (by omega)
      _ = Fintype.card ι * (16 + 6 * (V + 1)) := by simp [total]
  unfold clock
  omega

omit [Fintype ι] in
/-- Where nobody can move, everybody has finished. -/
theorem finished_of_stuck [Infinite α] {values : ι → List Int} {d l : α}
    (h : (program values d l).Reachable c) (hstuck : ¬ (program values d l).CanMove c) :
    Finished c := by
  obtain ⟨⟨L, hI⟩, hB⟩ := (invariant values d l).reachable h
  intro i
  by_contra hi
  rcases hI.moves_or_waits values d l hB i hi with hmove | ⟨b, j, -, hb, hheld⟩
  · exact hstuck hmove
  · exact hstuck (hI.holder_moves hB rfl hb hheld)

/-- **What adding costs**, under every schedule: `V` values are added in exactly
`3 * V ^ 2 + 14 * V - 2` steps, whoever adds them and whoever moves when. No run is longer,
every run can be continued to one that is that long, and then everybody has finished, all
locks are free, and behind the head node stand the values of all threads, those of each in
their order. -/
theorem linked_list_ends [Infinite α] (values : ι → List Int) (d l : α) :
    (program values d l).EndsWithin
      (3 * (∑ i, (values i).length) ^ 2 + 14 * (∑ i, (values i).length) - 2) fun ls c =>
      ls.length = 3 * (∑ i, (values i).length) ^ 2 + 14 * (∑ i, (values i).length) - 2
      ∧ (∀ i, c.threads i = ⟨.idle, []⟩)
      ∧ ∃ (L : List α) (es : List (ι × Int)), IsChain c.shared.link (c.shared.head :: L)
        ∧ (∀ a ∈ c.shared.head :: L, c.shared.mutexOf a = some none)
        ∧ L.map c.shared.valueAt = es.map (fun e => some e.2)
        ∧ ∀ i, values i = es.filterMap fun e => if e.1 = i then some e.2 else none := by
  rw [← cost_eq]
  have hpaid : ∀ {ls c}, (program values d l).Reaches ls c →
      ∃ L, Paid (∑ i, (values i).length) L c ∧ clock L c = ls.length := exists_paid values d l
  generalize ∑ i, (values i).length = V at hpaid ⊢
  refine EndsWithin.tighten (n := cost V + Fintype.card ι * (16 + 6 * (V + 1)))
    ⟨fun hrun => ?_, fun {ls c} hrun hstuck => ?_⟩ fun hP => hP.1.le
  · obtain ⟨L, hP, hclock⟩ := hpaid hrun
    have := hP.clock_le
    omega
  · have hfinished := finished_of_stuck hrun.reachable hstuck
    refine ⟨?_, hfinished, ?_⟩
    · obtain ⟨L, hP, hclock⟩ := hpaid hrun
      have := hP.cost_eq hfinished
      omega
    · obtain ⟨L, hI, hvalues⟩ := values_balance values d l hrun
      obtain ⟨L, rfl⟩ := List.head?_eq_some_iff.mp hI.first
      refine ⟨L, _, hI.chain, fun a ha => ?_, hvalues, fun i => ?_⟩
      · obtain ⟨m, hm, hheld⟩ := hI.locks ha
        cases m with
        | none => exact hm
        | some j =>
            have hj := of_decide_eq_true ((hheld j).mpr rfl)
            rw [hfinished j] at hj
            cases hj
      · have horder := program_order values d l hrun i
        rw [hfinished i] at horder
        exact horder.trans (List.append_nil _)

/-- Two threads with one value each, which take 38 steps together. -/
theorem linked_list_ends_two :
    ∃ (ls : List (Move (Fin 2) Nat)) (c : Conf (Fin 2) (NodeList (Fin 2) Nat) (Worker Nat)),
      (program (fun i => if i = 0 then [5] else [7]) 0 0).Reaches ls c ∧ ls.length = 38
      ∧ Finished c := by
  obtain ⟨ls, c, hrun, -, hlen, hfinished, -⟩ :=
    (linked_list_ends (fun i : Fin 2 => if i = 0 then [5] else [7]) (0 : Nat) 0).exists_run
  exact ⟨ls, c, hrun, hlen.trans (by decide), hfinished⟩

end Clock
end CAdvanced.LinkedList
