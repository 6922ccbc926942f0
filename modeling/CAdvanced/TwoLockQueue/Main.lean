import CAdvanced.TwoLockQueue.Nonempty

/-!
# TwoLockQueue — Main

The whole program of `queue.c`. `main` creates `THREADS` threads, each of which runs
`enqueueWrapper` on the one queue, and joins them. A step of `main` is one creation, one
join or one loop test; a step of a worker is one loop test or one step of its call. The
times that `main` measures are left out.

`main_simulates` connects the program with `Model`: it is a run of threads that make the
calls of `wrapperCalls`.
-/

namespace CAdvanced.TwoLockQueue

open Interleave System Heap

/-- The program points of `main`: its two loops over the threads. -/
inductive Main (n : Nat) where
  | forCreate (i : Nat)
  | create (i : Fin n)
  | forJoin (i : Nat)
  | join (i : Fin n)
  | returned
  deriving DecidableEq, Repr

/-- The program points of `enqueueWrapper`, with its loop counter. -/
inductive Wrapper (α : Type) where
  | notCreated
  | forEnqueue (i : Nat)
  | enqueue (i : Nat) (p : Enqueue α)
  | forDequeue (i : Nat)
  | dequeue (i : Nat) (p : Dequeue α)
  | finished
  deriving DecidableEq, Repr

/-- Who moves, and what `malloc` would give to a worker. -/
inductive Act (n : Nat) (α : Type) where
  | main
  | worker (i : Fin n) (m : Malloc α)
  deriving DecidableEq, Repr

/-- The state of the program. -/
structure State (n : Nat) (α : Type) where
  q : Queue (Fin n) α
  main : Main n
  workers : Fin n → Wrapper α

section Code
variable {n : Nat} {α : Type} [DecidableEq α]

/-- `enqueueWrapper(q)`, one step of worker `t`. -/
def enqueueWrapper (MAX DEQUEUE : Nat) (t : Fin n) (m : Malloc α) (q : Queue (Fin n) α) :
    Wrapper α → Option (Queue (Fin n) α × Wrapper α)
  | .notCreated => none
  | .forEnqueue i => some (q, if i < MAX then .enqueue i .malloc else .forDequeue 0)
  | .enqueue i p => (TwoLockQueue.enqueue t m i q p).map fun r =>
      (r.1, r.2.resume (.enqueue i) (.forEnqueue (i + 1)))
  | .forDequeue i => some (q, if i < DEQUEUE then .dequeue i .lockHead else .finished)
  | .dequeue i p => (TwoLockQueue.dequeue t q p).map fun r =>
      (r.1, r.2.resume (.dequeue i) (.forDequeue (i + 1)))
  | .finished => none

/-- `main`, one step. -/
def mainStep (s : State n α) : Main n → Option (State n α)
  | .forCreate i => some { s with main := if h : i < n then .create ⟨i, h⟩ else .forJoin 0 }
  | .create i =>
      some { s with
        workers := Function.update s.workers i (.forEnqueue 0)
        main := .forCreate (i + 1) }
  | .forJoin i => some { s with main := if h : i < n then .join ⟨i, h⟩ else .returned }
  | .join i =>
      if s.workers i = .finished then some { s with main := .forJoin (i + 1) } else none
  | .returned => none

/-- One step of a thread. -/
def next (MAX DEQUEUE : Nat) : Act n α → State n α → Option (State n α)
  | .main, s => mainStep s s.main
  | .worker i m, s => (enqueueWrapper MAX DEQUEUE i m s.q (s.workers i)).map fun r =>
      { s with q := r.1, workers := Function.update s.workers i r.2 }

/-- `main` after `initQueue`, whose dummy node is at `d`. -/
def start (n : Nat) (d : α) : State n α where
  q := initQueue d
  main := .forCreate 0
  workers := fun _ => .notCreated

end Code

/-- The whole program, with `THREADS` = `n`. -/
def main {α : Type} [DecidableEq α] (n MAX DEQUEUE : Nat) (d : α) : System (State n α) (Act n α) :=
  ⟨start n d, next MAX DEQUEUE⟩

/-! ## The calls of the program -/

/-- The first loop of `enqueueWrapper`, from `i` on. -/
def enqueues (MAX i : Nat) : List Op := (List.range' i (MAX - i)).map fun k : Nat => .enqueue k

/-- The second loop of `enqueueWrapper`, from `i` on. -/
def dequeues (DEQUEUE i : Nat) : List Op := List.replicate (DEQUEUE - i) .dequeue

/-- The calls that `enqueueWrapper` makes. -/
def wrapperCalls (MAX DEQUEUE : Nat) : List Op := enqueues MAX 0 ++ dequeues DEQUEUE 0

section Calls
variable {MAX DEQUEUE : Nat}

theorem enqueues_of_lt {i : Nat} (h : i < MAX) :
    enqueues MAX i = .enqueue i :: enqueues MAX (i + 1) := by
  have hsub : MAX - i = MAX - (i + 1) + 1 := by omega
  rw [enqueues, enqueues, hsub, List.range'_succ, List.map_cons]

theorem enqueues_of_le {i : Nat} (h : MAX ≤ i) : enqueues MAX i = [] := by
  rw [enqueues, Nat.sub_eq_zero_of_le h]
  rfl

theorem dequeues_of_lt {i : Nat} (h : i < DEQUEUE) :
    dequeues DEQUEUE i = .dequeue :: dequeues DEQUEUE (i + 1) := by
  have hsub : DEQUEUE - i = DEQUEUE - (i + 1) + 1 := by omega
  rw [dequeues, dequeues, hsub, List.replicate_succ]

theorem dequeues_of_le {i : Nat} (h : DEQUEUE ≤ i) : dequeues DEQUEUE i = [] := by
  rw [dequeues, Nat.sub_eq_zero_of_le h]
  rfl

theorem isEnqueue_of_mem_enqueues {i : Nat} {o : Op} (h : o ∈ enqueues MAX i) :
    o.isEnqueue = true := by
  obtain ⟨k, -, rfl⟩ := List.mem_map.mp h
  rfl

theorem length_enqueues : (enqueues MAX 0).length = MAX := by
  rw [enqueues, List.length_map, List.length_range', Nat.sub_zero]

theorem wrapperCalls_covered (h : DEQUEUE ≤ MAX) : Covered (wrapperCalls MAX DEQUEUE) := by
  refine covered_append (fun o => isEnqueue_of_mem_enqueues) ?_
  rw [length_enqueues, dequeues, List.length_replicate, Nat.sub_zero]
  exact h

theorem countP_isEnqueue_wrapperCalls :
    (wrapperCalls MAX DEQUEUE).countP Op.isEnqueue = MAX := by
  rw [wrapperCalls, List.countP_append,
    List.countP_eq_length.mpr fun o => isEnqueue_of_mem_enqueues, length_enqueues, dequeues,
    List.countP_replicate]
  rfl

theorem countP_isDequeue_wrapperCalls :
    (wrapperCalls MAX DEQUEUE).countP Op.isDequeue = DEQUEUE := by
  have hnone : (enqueues MAX 0).countP Op.isDequeue = 0 := by
    refine List.countP_eq_zero.mpr fun o ho => ?_
    obtain ⟨k, -, rfl⟩ := List.mem_map.mp ho
    exact Bool.false_ne_true
  rw [wrapperCalls, List.countP_append, hnone, dequeues, List.countP_replicate, Nat.sub_zero,
    Nat.zero_add]
  rfl

theorem filterMap_value_wrapperCalls :
    (wrapperCalls MAX DEQUEUE).filterMap Op.value = (List.range MAX).map Int.ofNat := by
  rw [wrapperCalls, List.filterMap_append, enqueues, dequeues, List.filterMap_map,
    List.filterMap_replicate_of_none rfl, List.append_nil, Nat.sub_zero, ← List.range_eq_range',
    ← List.filterMap_eq_map]
  rfl

end Calls

section Threads
variable {n : Nat} {α : Type}

/-- A thread that runs `enqueueWrapper`, as a thread that makes calls. -/
def Wrapper.asWorker (MAX DEQUEUE : Nat) : Wrapper α → Worker α
  | .notCreated => ⟨.idle, wrapperCalls MAX DEQUEUE⟩
  | .forEnqueue i => ⟨.idle, enqueues MAX i ++ dequeues DEQUEUE 0⟩
  | .enqueue i p => ⟨.enqueue i p, enqueues MAX (i + 1) ++ dequeues DEQUEUE 0⟩
  | .forDequeue i => ⟨.idle, dequeues DEQUEUE i⟩
  | .dequeue i p => ⟨.dequeue p, dequeues DEQUEUE (i + 1)⟩
  | .finished => ⟨.idle, []⟩

/-- The program as threads that make calls. -/
def calls (MAX DEQUEUE : Nat) (s : State n α) : Conf (Fin n) (Queue (Fin n) α) (Worker α) :=
  ⟨s.q, fun i => (s.workers i).asWorker MAX DEQUEUE⟩

/-- The step of a call that a step of the program is, if it is one. -/
def callStep (MAX DEQUEUE : Nat) : Act n α → State n α → Option (Move (Fin n) α)
  | .main, _ => none
  | .worker i m, s =>
      match s.workers i with
      | .forEnqueue k => if k < MAX then some ⟨i, m⟩ else none
      | .forDequeue k => if k < DEQUEUE then some ⟨i, m⟩ else none
      | .enqueue _ _ | .dequeue _ _ => some ⟨i, m⟩
      | .notCreated | .finished => none

/-- The node that a step links in, with its value and its thread. -/
def links : Act n α → State n α → Option (Linked (Fin n) α)
  | .main, _ => none
  | .worker i _, s =>
      match s.workers i with
      | .enqueue k (.storeNext tmp _) => some ⟨i, k, tmp⟩
      | _ => none

/-! ## Where the threads stand -/

/-- How many threads `main` has created. -/
def Main.created : Main n → Nat
  | .forCreate i => i
  | .create i => i
  | _ => n

/-- How many threads `main` has joined. -/
def Main.joined : Main n → Nat
  | .forJoin i => i
  | .join i => i
  | .returned => n
  | _ => 0

/-- Where `main` and the workers stand with respect to each other. -/
structure Control (s : State n α) : Prop where
  created_le : s.main.created ≤ n
  joined_le : s.main.joined ≤ n
  created : ∀ k : Fin n, s.main.created ≤ k → s.workers k = .notCreated
  joined : ∀ k : Fin n, k.val < s.main.joined → s.workers k = .finished

theorem control_start [DecidableEq α] (n : Nat) (d : α) : Control (start n d) where
  created_le := Nat.zero_le n
  joined_le := Nat.zero_le n
  created _ _ := rfl
  joined _ h := absurd h (Nat.not_lt_zero _)

section Steps
variable [DecidableEq α] {MAX DEQUEUE : Nat} {s s' : State n α}

/-- A worker that moves is there, and has not finished. -/
theorem enqueueWrapper_running {t : Fin n} {m : Malloc α} {q q' : Queue (Fin n) α}
    {w w' : Wrapper α} (h : enqueueWrapper MAX DEQUEUE t m q w = some (q', w')) :
    w ≠ .notCreated ∧ w ≠ .finished := by
  constructor
  · rintro rfl
    cases h
  · rintro rfl
    cases h

omit [DecidableEq α] in
theorem Control.worker {t : Fin n} {w : Wrapper α} {q : Queue (Fin n) α} (hC : Control s)
    (hnew : s.workers t ≠ .notCreated) (hend : s.workers t ≠ .finished) :
    Control { s with q := q, workers := Function.update s.workers t w } where
  created_le := hC.created_le
  joined_le := hC.joined_le
  created := by
    intro k hk
    have hold := hC.created k hk
    refine (Function.update_of_ne ?_ _ _).trans hold
    rintro rfl
    exact hnew hold
  joined := by
    intro k hk
    have hold := hC.joined k hk
    refine (Function.update_of_ne ?_ _ _).trans hold
    rintro rfl
    exact hend hold

theorem Control.step {l : Act n α} (hC : Control s) (h : next MAX DEQUEUE l s = some s') :
    Control s' := by
  cases l with
  | worker t m =>
      simp only [next, Option.map_eq_some_iff] at h
      obtain ⟨⟨q, w⟩, hstep, rfl⟩ := h
      obtain ⟨hnew, hend⟩ := enqueueWrapper_running hstep
      exact hC.worker hnew hend
  | main =>
      obtain ⟨q, pc, workers⟩ := s
      have hle := hC.created_le
      have hjoined_le := hC.joined_le
      cases pc with
      | forCreate i =>
          cases h
          by_cases hi : i < n
          · simp only [dif_pos hi]
            exact ⟨hle, Nat.zero_le n, hC.created, hC.joined⟩
          · obtain rfl : i = n := Nat.le_antisymm hle (Nat.not_lt.mp hi)
            simp only [dif_neg hi]
            exact ⟨hle, Nat.zero_le _, hC.created, hC.joined⟩
      | create i =>
          cases h
          refine ⟨i.isLt, Nat.zero_le n, ?_, fun k hk => absurd hk (Nat.not_lt_zero _)⟩
          intro k hk
          have hki : k ≠ i := by
            rintro rfl
            exact Nat.not_succ_le_self _ hk
          exact (Function.update_of_ne hki _ _).trans (hC.created k (Nat.le_of_succ_le hk))
      | forJoin i =>
          cases h
          by_cases hi : i < n
          · simp only [dif_pos hi]
            exact ⟨hle, hjoined_le, hC.created, hC.joined⟩
          · obtain rfl : i = n := Nat.le_antisymm hjoined_le (Nat.not_lt.mp hi)
            simp only [dif_neg hi]
            exact ⟨hle, hjoined_le, hC.created, hC.joined⟩
      | join i =>
          simp only [next, mainStep, Option.ite_none_right_eq_some, Option.some.injEq] at h
          obtain ⟨hfinished, rfl⟩ := h
          refine ⟨hle, i.isLt, hC.created, ?_⟩
          intro k hk
          rcases Nat.lt_succ_iff_lt_or_eq.mp hk with hlt | heq
          · exact hC.joined k hlt
          · rw [Fin.ext heq]
            exact hfinished
      | returned => cases h

/-! ## The program makes calls -/

theorem calls_start (d : α) :
    calls MAX DEQUEUE (start n d) = initial (fun _ => wrapperCalls MAX DEQUEUE) d := rfl

omit [DecidableEq α] in
theorem calls_worker (s : State n α) (t : Fin n) (q : Queue (Fin n) α) (w : Wrapper α) :
    calls MAX DEQUEUE { s with q := q, workers := Function.update s.workers t w }
      = ⟨q, Function.update (calls MAX DEQUEUE s).threads t (w.asWorker MAX DEQUEUE)⟩ := by
  unfold calls
  congr 1
  ext k : 1
  by_cases hk : k = t
  · subst hk
    simp only [Function.update_self]
  · simp only [Function.update_of_ne hk]

omit [DecidableEq α] in
/-- A step of a worker that is no step of a call. -/
theorem calls_worker_silent {t : Fin n} {w : Wrapper α}
    (hw : w.asWorker MAX DEQUEUE = (s.workers t).asWorker MAX DEQUEUE) :
    calls MAX DEQUEUE { s with workers := Function.update s.workers t w }
      = calls MAX DEQUEUE s := by
  refine (calls_worker s t s.q w).trans ?_
  rw [hw]
  exact congrArg (Conf.mk s.q) (Function.update_eq_self t _)

/-- A step of a worker as a step of its call, or as none. -/
theorem enqueueWrapper_calls {t : Fin n} {m : Malloc α} {q' : Queue (Fin n) α} {w' : Wrapper α}
    (h : enqueueWrapper MAX DEQUEUE t m s.q (s.workers t) = some (q', w')) :
    (callStep MAX DEQUEUE (.worker t m) s = none ∧ q' = s.q
        ∧ w'.asWorker MAX DEQUEUE = (s.workers t).asWorker MAX DEQUEUE)
      ∨ (callStep MAX DEQUEUE (.worker t m) s = some ⟨t, m⟩
        ∧ worker t m s.q ((s.workers t).asWorker MAX DEQUEUE)
          = some (q', w'.asWorker MAX DEQUEUE)) := by
  simp only [callStep]
  cases hw : s.workers t with
  | notCreated | finished =>
      rw [hw] at h
      cases h
  | forEnqueue k =>
      rw [hw] at h
      simp only [enqueueWrapper, Option.some.injEq, Prod.mk.injEq] at h
      obtain ⟨rfl, rfl⟩ := h
      by_cases hk : k < MAX
      · refine .inr ⟨if_pos hk, ?_⟩
        rw [if_pos hk, Wrapper.asWorker, enqueues_of_lt hk]
        rfl
      · refine .inl ⟨if_neg hk, rfl, ?_⟩
        rw [if_neg hk, Wrapper.asWorker, Wrapper.asWorker, enqueues_of_le (Nat.not_lt.mp hk)]
        rfl
  | forDequeue k =>
      rw [hw] at h
      simp only [enqueueWrapper, Option.some.injEq, Prod.mk.injEq] at h
      obtain ⟨rfl, rfl⟩ := h
      by_cases hk : k < DEQUEUE
      · refine .inr ⟨if_pos hk, ?_⟩
        rw [if_pos hk, Wrapper.asWorker, dequeues_of_lt hk]
        rfl
      · refine .inl ⟨if_neg hk, rfl, ?_⟩
        rw [if_neg hk, Wrapper.asWorker, Wrapper.asWorker, dequeues_of_le (Nat.not_lt.mp hk)]
  | enqueue k p =>
      rw [hw] at h
      simp only [enqueueWrapper, Option.map_eq_some_iff, Prod.mk.injEq, Prod.exists] at h
      obtain ⟨q, r, hp, rfl, rfl⟩ := h
      refine .inr ⟨rfl, ?_⟩
      simp only [Wrapper.asWorker, worker, hp, Option.map_some]
      cases r <;> rfl
  | dequeue k p =>
      rw [hw] at h
      simp only [enqueueWrapper, Option.map_eq_some_iff, Prod.mk.injEq, Prod.exists] at h
      obtain ⟨q, r, hp, rfl, rfl⟩ := h
      refine .inr ⟨rfl, ?_⟩
      simp only [Wrapper.asWorker, worker, hp, Option.map_some]
      cases r <;> rfl

/-- A step of `main` is no step of a call. -/
theorem calls_main (hC : Control s) (h : mainStep s s.main = some s') :
    calls MAX DEQUEUE s' = calls MAX DEQUEUE s := by
  obtain ⟨q, pc, workers⟩ := s
  cases pc with
  | forCreate i | forJoin i =>
      cases h
      rfl
  | create i =>
      cases h
      -- the worker was not there yet
      have hnew : workers i = .notCreated := hC.created i (Nat.le_refl _)
      refine calls_worker_silent (s := ⟨q, .forCreate (i + 1), workers⟩) ?_
      rw [show State.workers _ i = .notCreated from hnew]
      rfl
  | join i =>
      simp only [mainStep, Option.ite_none_right_eq_some, Option.some.injEq] at h
      obtain ⟨-, rfl⟩ := h
      rfl
  | returned => cases h

end Steps

/-- **The program is a run of threads that make the calls of `enqueueWrapper`.** -/
theorem main_simulates [DecidableEq α] (n MAX DEQUEUE : Nat) (d : α) :
    (main n MAX DEQUEUE d).Simulation (program (fun _ => wrapperCalls MAX DEQUEUE) d)
      (callStep MAX DEQUEUE) (fun s c => Control s ∧ c = calls MAX DEQUEUE s) where
  init := ⟨control_start n d, rfl⟩
  step := by
    rintro l s s' _ ⟨hC, rfl⟩ hstep
    have hC' := hC.step hstep
    cases l with
    | main => exact ⟨_, rfl, hC', (calls_main hC hstep).symm⟩
    | worker t m =>
        simp only [main, next, Option.map_eq_some_iff] at hstep
        obtain ⟨⟨q, w⟩, hw, rfl⟩ := hstep
        rcases enqueueWrapper_calls hw with ⟨hnone, rfl, hsame⟩ | ⟨hsome, hcall⟩
        · rw [hnone]
          exact ⟨_, rfl, hC', (calls_worker_silent hsame).symm⟩
        · rw [hsome]
          refine ⟨_, exec_singleton.trans ?_, hC', rfl⟩
          exact Conf.step_eq_some.mpr ⟨q, _, hcall, calls_worker s t q w⟩

/-- What a step of the program links in is what the step of its call does. -/
theorem links_callStep [DecidableEq α] {MAX DEQUEUE : Nat} (l : Act n α) (s : State n α) :
    links l s = (callStep MAX DEQUEUE l s).bind fun m => linkedBy m (calls MAX DEQUEUE s) := by
  cases l with
  | main => rfl
  | worker t m =>
      simp only [links, callStep, linkedBy, calls]
      cases hw : s.workers t with
      | notCreated | finished => rfl
      | forEnqueue k => by_cases hk : k < MAX <;> simp [hk, hw, Wrapper.asWorker]
      | forDequeue k => by_cases hk : k < DEQUEUE <;> simp [hk, hw, Wrapper.asWorker]
      | enqueue k p => cases p <;> simp [hw, Wrapper.asWorker]
      | dequeue k p => simp [hw, Wrapper.asWorker]

/-! ## The result -/

/-- **`queue.c`**, for any number of threads and any `DEQUEUE ≤ MAX`, and in every run: no
dequeue takes its empty branch; and when `main` has joined all threads, the chain from
`q->head` has `n * (MAX - DEQUEUE)` nodes after the dummy, `q->tail` is the last node, and
the nodes are the last ones that were linked in, so that the values of a thread that are
left are the end of the values `0, …, MAX - 1` which it enqueued. -/
theorem queue_main [DecidableEq α] {n MAX DEQUEUE : Nat} (hle : DEQUEUE ≤ MAX) (d : α)
    {ls : List (Act n α)} {s : State n α} (h : (main n MAX DEQUEUE d).Reaches ls s) :
    (∀ i k, s.workers i ≠ .dequeue k .unlockEmpty)
    ∧ (s.main = .returned →
      ∃ (L : List α) (old rest : List (Linked (Fin n) α)),
        IsChain s.q.link (s.q.head :: L)
        ∧ L.length = n * (MAX - DEQUEUE)
        ∧ (s.q.head :: L).getLast? = some s.q.tail
        ∧ (main n MAX DEQUEUE d).trace links ls (start n d) = old ++ rest
        ∧ rest.map Linked.node = L
        ∧ s.q.Holds L (rest.map Linked.value)
        ∧ ∀ i, valuesOf i (old ++ rest) = (List.range MAX).map Int.ofNat
          ∧ valuesOf i rest <:+ valuesOf i (old ++ rest)) := by
  have hcovered : ∀ _ : Fin n, Covered (wrapperCalls MAX DEQUEUE) :=
    fun _ => wrapperCalls_covered hle
  obtain ⟨_, hrun, hC, rfl⟩ := (main_simulates n MAX DEQUEUE d).reaches h
  constructor
  · intro i k hi
    refine pc_ne_unlockEmpty hcovered hrun.reachable i ?_
    simp only [calls, hi, Wrapper.asWorker]
  · intro hreturned
    have hfinished : ∀ i, s.workers i = .finished := by
      intro i
      refine hC.joined i ?_
      rw [hreturned]
      exact i.isLt
    have hdone : ∀ i, (calls MAX DEQUEUE s).threads i = ⟨.idle, []⟩ := by
      intro i
      simp only [calls, hfinished i, Wrapper.asWorker]
    obtain ⟨L, old, rest, hchain, hcount, htail, hsplit, hnodes, hholds, hvalues⟩ :=
      settled hcovered hrun hdone
    have htrace : (main n MAX DEQUEUE d).trace links ls (start n d)
        = (program (fun _ => wrapperCalls MAX DEQUEUE) d).trace linkedBy
            ((main n MAX DEQUEUE d).trace (callStep MAX DEQUEUE) ls (start n d))
            (initial (fun _ => wrapperCalls MAX DEQUEUE) d) :=
      (main_simulates n MAX DEQUEUE d).trace_eq
        (fun {l s _ _} hR _ => by rw [hR.2]; exact links_callStep l s) ⟨control_start n d, rfl⟩ h
    refine ⟨L, old, rest, hchain, ?_, htail, htrace.trans hsplit, hnodes, hholds, ?_⟩
    · have hsum : ∀ k : Nat, ∑ _i : Fin n, k = n * k := by
        intro k
        rw [Finset.sum_const_nat fun _ _ => rfl, Finset.card_univ, Fintype.card_fin]
      simp only [countP_isEnqueue_wrapperCalls, countP_isDequeue_wrapperCalls, hsum] at hcount
      rw [Nat.mul_sub]
      exact Nat.eq_sub_of_add_eq hcount
    · intro i
      refine ⟨(hvalues i).trans filterMap_value_wrapperCalls, ?_⟩
      rw [valuesOf, valuesOf, List.filterMap_append]
      exact List.suffix_append _ _

/-- Two threads that enqueue two values each and dequeue one: two nodes are left. -/
theorem queue_main_two :
    ∃ (ls : List (Act 2 Nat)) (s : State 2 Nat) (L : List Nat),
      (main 2 2 1 0).Reaches ls s ∧ s.main = .returned
      ∧ IsChain s.q.link (s.q.head :: L) ∧ L.length = 2 * (2 - 1) := by
  let run (i : Fin 2) (steps addr : Nat) : List (Act 2 Nat) :=
    List.replicate steps (.worker i ⟨addr, ⟨0, none⟩⟩)
  let ls := List.replicate 5 .main ++ run 0 9 1 ++ run 1 9 2 ++ run 0 18 3 ++ run 1 18 4
    ++ List.replicate 5 .main
  obtain ⟨s, hrun, hs⟩ := Option.any_eq_true _ _ |>.mp
    (show ((main 2 2 1 0).exec ls (start 2 0)).any (fun s => s.main = .returned) = true by
      decide +kernel)
  have hreturned := of_decide_eq_true hs
  obtain ⟨L, -, -, hchain, hlen, -⟩ := (queue_main (by decide) 0 hrun).2 hreturned
  exact ⟨ls, s, L, hrun, hreturned, hchain, hlen⟩

end Threads
end CAdvanced.TwoLockQueue
