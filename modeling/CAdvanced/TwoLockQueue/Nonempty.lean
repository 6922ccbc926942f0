import CAdvanced.TwoLockQueue.Refinement

/-!
# TwoLockQueue — Nonempty

When a dequeue cannot find the queue empty. A list of calls is `Covered` if none of its
beginnings has more dequeues than enqueues. If the calls of every thread are covered, so
is everything that has been carried out so far, in whatever order: a thread that is about
to look after `q->head` has itself carried out more enqueues than dequeues, and no other
thread has taken more than it brought. What is left when all calls are carried out is
then counted by the calls alone.
-/

namespace CAdvanced.TwoLockQueue

open Interleave System Heap

variable {ι α : Type}

/-! ## Calls -/

/-- The call is `enqueue`. -/
def Op.isEnqueue : Op → Bool
  | .enqueue _ => true
  | .dequeue => false

/-- The call is `dequeue`. -/
def Op.isDequeue : Op → Bool
  | .enqueue _ => false
  | .dequeue => true

/-- The value that a call puts in. -/
def Op.value : Op → Option Int
  | .enqueue v => some v
  | .dequeue => none

/-- No beginning of the calls has more dequeues than enqueues. -/
def Covered (calls : List Op) : Prop :=
  ∀ {done rest}, calls = done ++ rest → done.countP Op.isDequeue ≤ done.countP Op.isEnqueue

/-- Enqueues first, and then no more dequeues than that. -/
theorem covered_append {es ds : List Op} (hes : ∀ o ∈ es, o.isEnqueue = true)
    (hlen : ds.length ≤ es.length) : Covered (es ++ ds) := by
  intro done rest h
  have hnone : ∀ {xs : List Op}, (∀ o ∈ xs, o.isEnqueue = true) →
      xs.countP Op.isDequeue = 0 := by
    intro xs hxs
    refine List.countP_eq_zero.mpr fun o ho => ?_
    cases o with
    | enqueue v => exact Bool.false_ne_true
    | dequeue => cases hxs _ ho
  rcases List.append_eq_append_iff.mp h with ⟨bs, rfl, rfl⟩ | ⟨bs, rfl, rfl⟩
  · rw [List.countP_append, List.countP_append, hnone hes,
      List.countP_eq_length.mpr hes]
    have hbs : bs.countP Op.isDequeue ≤ bs.length := List.countP_le_length
    rw [List.length_append] at hlen
    omega
  · rw [hnone fun o ho => hes o (List.mem_append_left _ ho)]
    exact Nat.zero_le _

theorem isEnqueue_callOf (e : FifoEvent Int) : (callOf e).isEnqueue = e.enqueued.isSome := by
  cases e <;> rfl

/-- A dequeue that takes a value is a dequeue. -/
theorem isDequeue_callOf (e : FifoEvent Int) :
    e.dequeued.isSome = true → (callOf e).isDequeue = true := by
  cases e <;> simp [FifoEvent.dequeued, callOf, Op.isDequeue]

/-- A dequeue that does not find the queue empty takes a value. -/
theorem isDequeue_callOf_of_ne {e : FifoEvent Int} (h : e ≠ .deqEmpty) :
    (callOf e).isDequeue = e.dequeued.isSome := by
  cases e with
  | enq v => rfl
  | deq v => rfl
  | deqEmpty => exact absurd rfl h

/-! ## Counting what has been carried out -/

/-- The queue operation that a step carries out, and the thread that takes it. -/
def threadEvent (m : Move ι α) (c : Conf ι (Queue ι α) (Worker α)) :
    Option (ι × FifoEvent Int) :=
  (fifoEvent m c).map fun e => (m.tid, e)

/-- A thread that is about to look after `q->head` has a dequeue pending. -/
theorem pending_of_deqEmpty {q : Queue ι α} {w : Worker α} (h : w.event q = some .deqEmpty) :
    ∃ rest, w.pending = .dequeue :: rest := by
  obtain ⟨pc, calls⟩ := w
  cases pc with
  | idle => cases h
  | enqueue v p => cases p <;> cases h
  | dequeue p =>
      cases p with
      | loadNext current => exact ⟨calls, rfl⟩
      | storeHead current newHead =>
          obtain ⟨n, -, hn⟩ := Option.map_eq_some_iff.mp h
          cases hn
      | lockHead | loadHead | unlockEmpty | unlockHead current | free current => cases h

/-- The empty branch is entered by a dequeue that finds the queue empty. -/
theorem event_of_unlockEmpty [DecidableEq α] {i : ι} {m : Malloc α} {q q' : Queue ι α}
    {w w' : Worker α} (h : worker i m q w = some (q', w')) (hw : w'.pc = .dequeue .unlockEmpty) :
    w.event q = some .deqEmpty := by
  obtain ⟨pc, calls⟩ := w
  cases pc with
  | idle =>
      cases calls with
      | nil => cases h
      | cons op calls => cases op <;> cases h <;> cases hw
  | enqueue v p =>
      simp only [worker, Option.map_eq_some_iff, Prod.mk.injEq, Prod.exists] at h
      obtain ⟨q', k, -, rfl, rfl⟩ := h
      cases k <;> cases hw
  | dequeue p =>
      simp only [worker, Option.map_eq_some_iff, Prod.mk.injEq, Prod.exists] at h
      obtain ⟨q', k, hk, rfl, rfl⟩ := h
      cases k with
      | ret => cases hw
      | goto p' =>
          obtain rfl : p' = .unlockEmpty := Pc.dequeue.inj hw
          cases p with
          | loadNext current =>
              simp only [dequeue, Option.map_eq_some_iff, Prod.mk.injEq] at hk
              obtain ⟨n, hn, -, hnext⟩ := hk
              cases hlink : n.next with
              | none =>
                  have hcurrent : q.link current = some none := by rw [Queue.link, hn, ← hlink]; rfl
                  simp only [Worker.event, hcurrent]
              | some newHead =>
                  rw [hlink] at hnext
                  cases hnext
          | lockHead | free current =>
              simp only [dequeue, Option.map_eq_some_iff, Prod.mk.injEq] at hk
              obtain ⟨_, -, -, hnext⟩ := hk
              cases hnext
          | loadHead | unlockEmpty | storeHead current newHead | unlockHead current => cases hk

/-- What a step links in: the node, its value, and the thread that enqueues it. -/
structure Linked (ι α : Type) where
  thread : ι
  value : Int
  node : α
  deriving DecidableEq, Repr

/-- The node that a step links in, with its value and its thread. -/
def linkedBy (m : Move ι α) (c : Conf ι (Queue ι α) (Worker α)) : Option (Linked ι α) :=
  match c.threads m.tid with
  | ⟨.enqueue v (.storeNext tmp _), _⟩ => some ⟨m.tid, v, tmp⟩
  | _ => none

/-- The values of thread `i`. -/
def valuesOf [DecidableEq ι] (i : ι) (es : List (Linked ι α)) : List Int :=
  es.filterMap fun e => if e.thread = i then some e.value else none

theorem linkedBy_linked (m : Move ι α) (c : Conf ι (Queue ι α) (Worker α)) :
    linked m c = (linkedBy m c).bind fun e => some e.node := by
  rw [linked, linkedBy]
  rcases c.threads m.tid with ⟨pc, calls⟩
  cases pc with
  | idle => rfl
  | enqueue v p => cases p <;> rfl
  | dequeue p => rfl

theorem linkedBy_enqueued (m : Move ι α) (c : Conf ι (Queue ι α) (Worker α)) :
    (fifoEvent m c).bind FifoEvent.enqueued = (linkedBy m c).bind fun e => some e.value := by
  rw [fifoEvent, linkedBy]
  rcases c.threads m.tid with ⟨pc, calls⟩
  cases pc with
  | idle => rfl
  | enqueue v p => cases p <;> rfl
  | dequeue p =>
      cases p with
      | loadNext current =>
          simp only [Worker.event]
          split <;> rfl
      | storeHead current newHead =>
          simp only [Worker.event]
          cases c.shared.heap newHead <;> rfl
      | lockHead | loadHead | unlockEmpty | unlockHead current | free current => rfl

theorem linkedBy_thread {m : Move ι α} {c : Conf ι (Queue ι α) (Worker α)} {e : Linked ι α}
    (h : linkedBy m c = some e) : e.thread = m.tid := by
  rw [linkedBy] at h
  split at h
  · cases h
    rfl
  · cases h

theorem value_callOf (e : FifoEvent Int) : (callOf e).value = e.enqueued := by
  cases e <;> rfl

/-- The values that a thread puts in are those of its calls that are carried out. -/
theorem linkedBy_carriedOut [DecidableEq ι] (i : ι) (m : Move ι α)
    (c : Conf ι (Queue ι α) (Worker α)) :
    (carriedOut i m c).bind Op.value
      = (linkedBy m c).bind fun e => if e.thread = i then some e.value else none := by
  have hvalue : (if m.tid = i then (fifoEvent m c).map callOf else none).bind Op.value
      = if m.tid = i then (fifoEvent m c).bind FifoEvent.enqueued else none := by
    split
    · cases fifoEvent m c with
      | none => rfl
      | some e => exact value_callOf e
    · rfl
  rw [carriedOut, hvalue, linkedBy_enqueued]
  cases h : linkedBy m c with
  | none => exact ite_self none
  | some e => rw [Option.bind_some, Option.bind_some, linkedBy_thread h]

section Count
variable [DecidableEq ι] [DecidableEq α] {calls : ι → List Op} {d : α} {ls : List (Move ι α)}
  {c : Conf ι (Queue ι α) (Worker α)}

theorem trace_fifoEvent (ls : List (Move ι α)) (c : Conf ι (Queue ι α) (Worker α)) :
    (program calls d).trace fifoEvent ls c
      = ((program calls d).trace threadEvent ls c).map Prod.snd := by
  rw [← List.filterMap_eq_map, trace_filterMap]
  congr 1
  funext m c
  rw [threadEvent]
  cases fifoEvent m c <;> rfl

theorem trace_carriedOut (i : ι) (ls : List (Move ι α)) (c : Conf ι (Queue ι α) (Worker α)) :
    (program calls d).trace (carriedOut i) ls c
      = ((program calls d).trace threadEvent ls c).filterMap
          fun e => if e.1 = i then some (callOf e.2) else none := by
  rw [trace_filterMap]
  congr 1
  funext m c
  rw [threadEvent, carriedOut]
  cases fifoEvent m c with
  | none => exact ite_self none
  | some e => rfl

variable [Fintype ι]

/-- The calls that a run carries out are those of the threads together. -/
theorem countP_fifoEvent (p : Op → Bool) (ls : List (Move ι α))
    (c : Conf ι (Queue ι α) (Worker α)) :
    ((program calls d).trace fifoEvent ls c).countP (fun e => p (callOf e))
      = ∑ i, ((program calls d).trace (carriedOut i) ls c).countP p := by
  rw [trace_fifoEvent, List.countP_map]
  refine (countP_eq_sum _ fun e => p (callOf e)).trans ?_
  refine Finset.sum_congr rfl fun i _ => ?_
  rw [trace_carriedOut, List.countP_filterMap]
  refine List.countP_congr fun e _ => ?_
  by_cases hi : e.1 = i <;> simp [hi]

/-- What is in the queue is at least what the calls that are carried out leave. -/
theorem le_length_add {vs : List Int}
    (hfifo : (fifo Int).Reaches ((program calls d).trace fifoEvent ls (initial calls d)) vs) :
    ∑ i, ((program calls d).trace (carriedOut i) ls (initial calls d)).countP Op.isEnqueue
      ≤ vs.length
        + ∑ i, ((program calls d).trace (carriedOut i) ls (initial calls d)).countP
            Op.isDequeue := by
  have hbalance := congrArg List.length (fifo_balance hfifo)
  rw [List.length_append, List.length_filterMap_eq_countP,
    List.length_filterMap_eq_countP] at hbalance
  rw [← countP_fifoEvent, ← countP_fifoEvent]
  simp only [isEnqueue_callOf]
  have hle := List.countP_mono_left
    (l := (program calls d).trace fifoEvent ls (initial calls d))
    fun e _ => isDequeue_callOf e
  omega

/-- And exactly that, if no dequeue found it empty. -/
theorem length_add_eq {vs : List Int}
    (hfifo : (fifo Int).Reaches ((program calls d).trace fifoEvent ls (initial calls d)) vs)
    (hempty : .deqEmpty ∉ (program calls d).trace fifoEvent ls (initial calls d)) :
    vs.length
        + ∑ i, ((program calls d).trace (carriedOut i) ls (initial calls d)).countP
            Op.isDequeue
      = ∑ i, ((program calls d).trace (carriedOut i) ls (initial calls d)).countP
          Op.isEnqueue := by
  have hbalance := congrArg List.length (fifo_balance hfifo)
  rw [List.length_append, List.length_filterMap_eq_countP,
    List.length_filterMap_eq_countP] at hbalance
  rw [← countP_fifoEvent, ← countP_fifoEvent]
  simp only [isEnqueue_callOf]
  have heq : ((program calls d).trace fifoEvent ls (initial calls d)).countP
        (fun e => (callOf e).isDequeue)
      = ((program calls d).trace fifoEvent ls (initial calls d)).countP
        fun e => e.dequeued.isSome := by
    refine List.countP_congr fun e he => ?_
    rw [isDequeue_callOf_of_ne fun h => hempty (h ▸ he)]
  omega

/-! ## No dequeue finds the queue empty -/

theorem fifoEvent_ne_deqEmpty (hcalls : ∀ i, Covered (calls i))
    (h : (program calls d).Reaches ls c) {m : Move ι α} {c' : Conf ι (Queue ι α) (Worker α)}
    (hstep : (program calls d).next m c = some c') : fifoEvent m c ≠ some .deqEmpty := by
  intro hevent
  obtain ⟨vs, hfifo, hrep⟩ := (simulation calls d).reaches h
  obtain ⟨vs', hexec, -⟩ := (simulation calls d).step hrep hstep
  -- the abstract queue is empty
  have hvs : vs = [] := by
    rw [hevent] at hexec
    cases vs with
    | nil => rfl
    | cons v vs => cases hexec
  subst hvs
  -- no thread has taken more than it brought, and the mover less
  obtain ⟨rest, hrest⟩ := pending_of_deqEmpty hevent
  have hle := le_length_add hfifo
  have hlt := Finset.sum_lt_sum (s := Finset.univ)
    (f := fun i => ((program calls d).trace (carriedOut i) ls (initial calls d)).countP
      Op.isDequeue)
    (g := fun i => ((program calls d).trace (carriedOut i) ls (initial calls d)).countP
      Op.isEnqueue)
    (fun i _ => hcalls i (calls_balance calls d h i))
    ⟨m.tid, Finset.mem_univ _, by
      have hsplit := calls_balance calls d h m.tid
      rw [hrest, List.append_cons] at hsplit
      have hone := hcalls m.tid hsplit
      rw [List.countP_append, List.countP_append] at hone
      exact Nat.lt_of_succ_le hone⟩
  rw [List.length_nil, Nat.zero_add] at hle
  exact absurd hle (Nat.not_le_of_lt hlt)

/-- **No dequeue finds the queue empty**, if the calls of every thread are covered. -/
theorem trace_ne_deqEmpty (hcalls : ∀ i, Covered (calls i))
    (h : (program calls d).Reaches ls c) :
    ∀ e ∈ (program calls d).trace fifoEvent ls (initial calls d), e ≠ .deqEmpty := by
  refine (tally_eq_zero_iff (I := (program calls d).Reachable) (p := fun _ _ => false)
    ⟨⟨[], rfl⟩, Reachable.next⟩ ?_ ⟨[], rfl⟩ h).mp (tally_false ls _)
  rintro m c c' ⟨ls', hls'⟩ hstep
  refine ⟨fun _ e he hempty => ?_, fun _ => rfl⟩
  exact fifoEvent_ne_deqEmpty hcalls hls' hstep (he.trans (congrArg some hempty))

/-- **No dequeue takes its empty branch**, if the calls of every thread are covered. -/
theorem pc_ne_unlockEmpty (hcalls : ∀ i, Covered (calls i))
    (h : (program calls d).Reachable c) (i : ι) :
    (c.threads i).pc ≠ .dequeue .unlockEmpty := by
  have hinv : (program calls d).Inductive fun c =>
      (program calls d).Reachable c ∧ ∀ i, (c.threads i).pc ≠ .dequeue .unlockEmpty := by
    refine ⟨⟨⟨[], rfl⟩, fun _ => nofun⟩, ?_⟩
    rintro m c c' ⟨⟨ls, hls⟩, hall⟩ hstep
    refine ⟨hls.reachable.next hstep, ?_⟩
    refine Conf.step_forall (A := fun _ w => w.pc ≠ .dequeue .unlockEmpty) hstep ?_
      fun j _ => hall j
    intro hpc
    exact fifoEvent_ne_deqEmpty hcalls hls hstep
      (event_of_unlockEmpty (Conf.step_mover hstep) hpc)
  exact (hinv.reachable h).2 i

/-! ## What is left -/

omit [Fintype ι] in
theorem trace_linked (ls : List (Move ι α)) (c : Conf ι (Queue ι α) (Worker α)) :
    (program calls d).trace linked ls c
      = ((program calls d).trace linkedBy ls c).map Linked.node := by
  rw [← List.filterMap_eq_map, trace_filterMap]
  exact congrArg (fun obs => (program calls d).trace obs ls c)
    (funext₂ fun m c => linkedBy_linked m c)

omit [Fintype ι] in
theorem trace_enqueued (ls : List (Move ι α)) (c : Conf ι (Queue ι α) (Worker α)) :
    ((program calls d).trace fifoEvent ls c).filterMap FifoEvent.enqueued
      = ((program calls d).trace linkedBy ls c).map Linked.value := by
  rw [← List.filterMap_eq_map, trace_filterMap, trace_filterMap]
  exact congrArg (fun obs => (program calls d).trace obs ls c)
    (funext₂ fun m c => linkedBy_enqueued m c)

omit [Fintype ι] in
theorem valuesOf_trace (i : ι) (ls : List (Move ι α)) (c : Conf ι (Queue ι α) (Worker α)) :
    valuesOf i ((program calls d).trace linkedBy ls c)
      = ((program calls d).trace (carriedOut i) ls c).filterMap Op.value := by
  rw [valuesOf, trace_filterMap, trace_filterMap]
  exact congrArg (fun obs => (program calls d).trace obs ls c)
    (funext₂ fun m c => (linkedBy_carriedOut i m c).symm)

omit [Fintype ι] [DecidableEq ι] [DecidableEq α] in
/-- The nodes on the chain are the last ones that were linked in. -/
theorem suffix_of_balance {d a : α} {xs us L : List α} (h : d :: xs = us ++ a :: L) :
    L <:+ xs := by
  cases us with
  | nil =>
      obtain ⟨-, rfl⟩ := List.cons.inj h
      exact List.suffix_refl xs
  | cons u us =>
      obtain ⟨-, rfl⟩ := List.cons.inj h
      exact ⟨us ++ [a], (List.append_assoc ..).trans rfl⟩

omit [Fintype ι] in
/-- **The contents, by thread**: the nodes after `q->head` are the last ones that were
linked in, each with its value; so what is left of a thread's values is the end of what it
put in. -/
theorem contents_linkedBy (h : (program calls d).Reaches ls c) :
    ∃ (L : List α) (vs : List Int) (old rest : List (Linked ι α)), Inv L c
      ∧ (fifo Int).Reaches ((program calls d).trace fifoEvent ls (initial calls d)) vs
      ∧ (program calls d).trace linkedBy ls (initial calls d) = old ++ rest
      ∧ rest.map Linked.node = L ∧ rest.map Linked.value = vs
      ∧ c.shared.Holds L (rest.map Linked.value) := by
  obtain ⟨vs, hfifo, L, hI, hvs⟩ := (simulation calls d).reaches h
  obtain ⟨L', hI', hnodes⟩ := nodes_balance calls d h
  have hL : L = L' := (List.cons.inj (hI.chain.unique hI'.chain rfl)).2
  subst hL
  have hsuffix := suffix_of_balance hnodes
  rw [trace_linked, List.suffix_iff_eq_drop, ← List.map_drop] at hsuffix
  set es := (program calls d).trace linkedBy ls (initial calls d)
  set k := (es.map Linked.node).length - L.length
  have hsplit : es = es.take k ++ es.drop k := (List.take_append_drop k es).symm
  -- as many values as nodes
  have hlen : (es.drop k).length = vs.length := by
    have hL := congrArg List.length hsuffix
    have hheld := congrArg List.length hvs
    rw [List.length_map] at hL
    rw [List.length_map, List.length_map] at hheld
    exact hL.symm.trans hheld
  have hvalues : (es.drop k).map Linked.value = vs := by
    have hbalance : es.map Linked.value
        = ((program calls d).trace fifoEvent ls (initial calls d)).filterMap
            FifoEvent.dequeued ++ vs :=
      (trace_enqueued ls _).symm.trans (fifo_balance hfifo)
    rw [hsplit, List.map_append] at hbalance
    refine (List.append_inj' hbalance ?_).2
    rw [List.length_map, hlen]
  exact ⟨L, vs, es.take k, es.drop k, hI, hfifo, hsplit, hsuffix.symm, hvalues, hvalues ▸ hvs⟩

/-- **When all calls are carried out**: what is left is counted by the calls, `q->tail` is
its last node, and the values of each thread that are left are the end of those it
enqueued. -/
theorem settled (hcalls : ∀ i, Covered (calls i)) (h : (program calls d).Reaches ls c)
    (hdone : ∀ i, c.threads i = ⟨.idle, []⟩) :
    ∃ (L : List α) (old rest : List (Linked ι α)),
      IsChain c.shared.link (c.shared.head :: L)
      ∧ L.length + ∑ i, (calls i).countP Op.isDequeue = ∑ i, (calls i).countP Op.isEnqueue
      ∧ (c.shared.head :: L).getLast? = some c.shared.tail
      ∧ (program calls d).trace linkedBy ls (initial calls d) = old ++ rest
      ∧ rest.map Linked.node = L
      ∧ c.shared.Holds L (rest.map Linked.value)
      ∧ ∀ i, valuesOf i (old ++ rest) = (calls i).filterMap Op.value := by
  obtain ⟨L, vs, old, rest, hI, hfifo, hsplit, hnodes, hvalues, hholds⟩ := contents_linkedBy h
  have hall : ∀ i, (program calls d).trace (carriedOut i) ls (initial calls d) = calls i := by
    intro i
    have hbalance := calls_balance calls d h i
    rw [hdone i] at hbalance
    exact (hbalance.trans (List.append_nil _)).symm
  refine ⟨L, old, rest, hI.chain, ?count, ?tail, hsplit, hnodes, hholds, ?values⟩
  case count =>
    have hcount := length_add_eq hfifo fun hmem => trace_ne_deqEmpty hcalls h _ hmem rfl
    simp only [hall] at hcount
    rw [← hnodes, List.length_map, ← hcount, ← hvalues, List.length_map]
  case tail =>
    -- nobody is between taking and giving back `taillock`
    have hfree : c.shared.taillock = none := by
      refine Option.eq_none_iff_forall_ne_some.mpr fun i hi => ?_
      have hin := (hI.taillock i).mpr hi
      rw [hdone i] at hin
      cases hin
    rw [hI.tail hfree]
    exact c.shared.getLast?_chain L
  case values =>
    intro i
    rw [← hsplit, valuesOf_trace, hall]

end Count
end CAdvanced.TwoLockQueue
