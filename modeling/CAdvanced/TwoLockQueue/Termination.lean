import CAdvanced.TwoLockQueue.Main
import CAdvanced.TwoLockQueue.Memory

/-!
# TwoLockQueue — Termination

Whoever has calls left can move, or waits for one of the two locks, and the holder of a
lock waits for nothing (`Inv.canMove`). So every run ends: of threads that make any
calls, and of the whole program, where no dequeue is in vain and all complete runs are
equally long. At the end exactly the nodes of the queue are allocated.
-/

namespace CAdvanced.TwoLockQueue

open Interleave System Heap

variable {ι α : Type}

/-! ## Who can move -/

/-- A thread with something to do can move, or it waits for a lock and holds none. -/
theorem worker_isSome_or_waits [DecidableEq α] {i : ι} {m : Malloc α} {q : Queue ι α}
    {w : Worker α} (hw : w ≠ ⟨.idle, []⟩) (hm : q.heap m.addr = none)
    (htouches : ∀ a, w.touches = some a → q.heap a ≠ none) :
    (worker i m q w).isSome
      ∨ (w.inTail = false ∧ w.inHead = false ∧ (q.taillock ≠ none ∨ q.headlock ≠ none)) := by
  obtain ⟨pc, calls⟩ := w
  cases pc with
  | idle =>
      cases calls with
      | nil => exact absurd rfl hw
      | cons op calls => cases op <;> exact .inl rfl
  | enqueue v p =>
      cases p with
      | malloc => simp [worker, enqueue, Queue.malloc, hm]
      | initValue tmp | initNext tmp | storeNext tmp tail =>
          obtain ⟨n, hn⟩ := Option.ne_none_iff_exists'.mp (htouches _ rfl)
          simp [worker, enqueue, Queue.store, hn]
      | lockTail tmp =>
          cases hlock : q.taillock with
          | none => simp [worker, enqueue, hlock, Mutex.lock]
          | some j => exact .inr ⟨rfl, rfl, .inl (Option.some_ne_none j)⟩
      | loadTail tmp | storeTail tmp | unlockTail => exact .inl rfl
  | dequeue p =>
      cases p with
      | lockHead =>
          cases hlock : q.headlock with
          | none => simp [worker, dequeue, hlock, Mutex.lock]
          | some j => exact .inr ⟨rfl, rfl, .inr (Option.some_ne_none j)⟩
      | loadNext current | free current =>
          obtain ⟨n, hn⟩ := Option.ne_none_iff_exists'.mp (htouches _ rfl)
          simp [worker, dequeue, Queue.free, hn]
      | loadHead | unlockEmpty | storeHead current newHead | unlockHead current =>
          exact .inl rfl

section Progress
variable [DecidableEq ι] [DecidableEq α] [Finite ι] [Infinite α] {calls : ι → List Op} {d : α}
  {c : Conf ι (Queue ι α) (Worker α)} {L : List α}

omit [DecidableEq ι] in
/-- **Somebody can move** as long as somebody has something to do. -/
theorem Inv.exists_move (hI : Inv L c) (hR : Reached L c) {i : ι}
    (hi : c.threads i ≠ ⟨.idle, []⟩) :
    ∃ m j, (worker j m c.shared (c.threads j)).isSome := by
  obtain ⟨a, ha⟩ := hR.exists_free
  let m : Malloc α := ⟨a, ⟨0, none⟩⟩
  have hmoves := fun j (hj : c.threads j ≠ ⟨.idle, []⟩) =>
    worker_isSome_or_waits (i := j) (m := m) hj ha fun _ => hI.touches_allocated
  -- the holder of a lock waits for nothing
  have hholder : ∀ j, (c.threads j).inTail = true ∨ (c.threads j).inHead = true →
      (worker j m c.shared (c.threads j)).isSome := by
    intro j hj
    have hbusy : c.threads j ≠ ⟨.idle, []⟩ := by
      intro hidle
      rw [hidle] at hj
      rcases hj with hj | hj <;> cases hj
    rcases hmoves j hbusy with hmove | ⟨htail, hhead, -⟩
    · exact hmove
    · rw [htail, hhead] at hj
      rcases hj with hj | hj <;> cases hj
  rcases hmoves i hi with hmove | ⟨-, -, hlock⟩
  · exact ⟨m, i, hmove⟩
  · rcases hlock with hlock | hlock
    · obtain ⟨j, hj⟩ := Option.ne_none_iff_exists'.mp hlock
      exact ⟨m, j, hholder j (.inl ((hI.taillock j).mpr hj))⟩
    · obtain ⟨j, hj⟩ := Option.ne_none_iff_exists'.mp hlock
      exact ⟨m, j, hholder j (.inr ((hI.headlock j).mpr hj))⟩

end Progress

/-- When all is done nobody has a node in hand, and both locks are free. -/
theorem Inv.settled {c : Conf ι (Queue ι α) (Worker α)} {L : List α} (hI : Inv L c)
    (hR : Reached L c) (hdone : ∀ i, c.threads i = ⟨.idle, []⟩) :
    c.shared.headlock = none ∧ c.shared.taillock = none
      ∧ ∀ a, c.shared.heap a ≠ none ↔ a ∈ c.shared.head :: L := by
  refine ⟨?_, ?_, fun a => ⟨fun ha => ?_, fun ha hnone => ?_⟩⟩
  · rw [Option.eq_none_iff_forall_ne_some]
    intro j hj
    have hin := (hI.headlock j).mpr hj
    rw [hdone] at hin
    cases hin
  · rw [Option.eq_none_iff_forall_ne_some]
    intro j hj
    have hin := (hI.taillock j).mpr hj
    rw [hdone] at hin
    cases hin
  · rcases hR a ha with hchain | ⟨j, hj⟩
    · exact hchain
    · rw [hdone] at hj
      cases hj
  · refine hI.chain.allocated ha ?_
    rw [Queue.link, hnone]
    rfl

/-! ## Counting steps -/

/-- The steps that `enqueue` has left. -/
def Enqueue.steps : Enqueue α → Nat
  | .malloc => 8
  | .initValue _ => 7
  | .initNext _ => 6
  | .lockTail _ => 5
  | .loadTail _ => 4
  | .storeNext _ _ => 3
  | .storeTail _ => 2
  | .unlockTail => 1

/-- The steps that `dequeue` has left, if it finds a node. -/
def Dequeue.steps : Dequeue α → Nat
  | .lockHead => 6
  | .loadHead => 5
  | .loadNext _ => 4
  | .storeHead _ _ => 3
  | .unlockHead _ => 2
  | .free _ => 1
  | .unlockEmpty => 1

theorem enqueue_steps [DecidableEq α] {i : ι} {m : Malloc α} {v : Int} {q q' : Queue ι α}
    {p : Enqueue α} {k : Ctl (Enqueue α)} (h : enqueue i m v q p = some (q', k)) :
    k.resume Enqueue.steps 0 + 1 = p.steps := by
  cases p with
  | malloc | initValue tmp | initNext tmp | lockTail tmp | storeNext tmp tail =>
      simp only [enqueue, Option.map_eq_some_iff, Prod.mk.injEq] at h
      obtain ⟨_, -, -, rfl⟩ := h
      rfl
  | loadTail tmp | storeTail tmp | unlockTail => cases h; rfl

theorem dequeue_steps [DecidableEq α] {i : ι} {q q' : Queue ι α} {p : Dequeue α}
    {k : Ctl (Dequeue α)} (h : dequeue i q p = some (q', k)) :
    k = .goto .unlockEmpty ∨ k.resume Dequeue.steps 0 + 1 = p.steps := by
  cases p with
  | lockHead | free current =>
      simp only [dequeue, Option.map_eq_some_iff, Prod.mk.injEq] at h
      obtain ⟨_, -, -, rfl⟩ := h
      exact .inr rfl
  | loadNext current =>
      simp only [dequeue, Option.map_eq_some_iff, Prod.mk.injEq] at h
      obtain ⟨n, -, -, rfl⟩ := h
      cases n.next with
      | none => exact .inl rfl
      | some newHead => exact .inr rfl
  | loadHead | unlockEmpty | storeHead current newHead | unlockHead current =>
      cases h
      exact .inr rfl

section Main
variable {n : Nat} (MAX DEQUEUE : Nat)

/-- The steps that a worker has left; all of them, before it is created. -/
def Wrapper.steps : Wrapper α → Nat
  | .notCreated => 9 * MAX + 7 * DEQUEUE + 2
  | .forEnqueue i => 9 * (MAX - i) + 7 * DEQUEUE + 2
  | .enqueue i p => p.steps + (9 * (MAX - (i + 1)) + 7 * DEQUEUE + 2)
  | .forDequeue i => 7 * (DEQUEUE - i) + 1
  | .dequeue i p => p.steps + (7 * (DEQUEUE - (i + 1)) + 1)
  | .finished => 0

/-- The steps that `main` has left. -/
def Main.steps : Main n → Nat
  | .forCreate i => 2 * (n - i) + 2 * n + 2
  | .create i => 2 * (n - (i + 1)) + 2 * n + 3
  | .forJoin i => 2 * (n - i) + 1
  | .join i => 2 * (n - (i + 1)) + 2
  | .returned => 0

/-- The steps that the program has left. -/
def State.steps (s : State n α) : Nat :=
  s.main.steps + total (Wrapper.steps MAX DEQUEUE) s.workers

variable {MAX DEQUEUE}

/-- A step of a worker that does not find the queue empty. -/
theorem enqueueWrapper_steps [DecidableEq α] {t : Fin n} {m : Malloc α} {q q' : Queue (Fin n) α}
    {w w' : Wrapper α} (h : enqueueWrapper MAX DEQUEUE t m q w = some (q', w'))
    (hempty : ∀ k, w' ≠ .dequeue k .unlockEmpty) :
    w'.steps MAX DEQUEUE + 1 = w.steps MAX DEQUEUE := by
  cases w with
  | notCreated | finished => cases h
  | forEnqueue i =>
      cases h
      by_cases hi : i < MAX
      · simp only [if_pos hi, Wrapper.steps, Enqueue.steps]
        omega
      · simp only [if_neg hi, Wrapper.steps]
        omega
  | forDequeue i =>
      cases h
      by_cases hi : i < DEQUEUE
      · simp only [if_pos hi, Wrapper.steps, Dequeue.steps]
        omega
      · simp only [if_neg hi, Wrapper.steps]
        omega
  | enqueue i p =>
      simp only [enqueueWrapper, Option.map_eq_some_iff, Prod.mk.injEq, Prod.exists] at h
      obtain ⟨q₁, k, hk, -, rfl⟩ := h
      have hp := enqueue_steps hk
      cases k with
      | goto p' =>
          simp only [Wrapper.steps, Ctl.resume_goto] at hp ⊢
          omega
      | ret =>
          simp only [Wrapper.steps, Ctl.resume_ret] at hp ⊢
          omega
  | dequeue i p =>
      simp only [enqueueWrapper, Option.map_eq_some_iff, Prod.mk.injEq, Prod.exists] at h
      obtain ⟨q₁, k, hk, -, rfl⟩ := h
      rcases dequeue_steps hk with rfl | hp
      · exact absurd rfl (hempty i)
      · cases k with
        | goto p' =>
            simp only [Wrapper.steps, Ctl.resume_goto] at hp ⊢
            omega
        | ret =>
            simp only [Wrapper.steps, Ctl.resume_ret] at hp ⊢
            omega

/-- A step of `main`; the worker that it creates was not there before. -/
theorem mainStep_steps [DecidableEq α] {s s' : State n α} (hC : Control s) (h : mainStep s s.main = some s') :
    s'.steps MAX DEQUEUE + 1 = s.steps MAX DEQUEUE := by
  obtain ⟨q, pc, workers⟩ := s
  have hle := hC.created_le
  have hjoined := hC.joined_le
  cases pc with
  | forCreate i | forJoin i =>
      cases h
      by_cases hi : i < n
      · simp only [dif_pos hi, State.steps, Main.steps]
        omega
      · simp only [dif_neg hi, State.steps, Main.steps]
        omega
  | create i =>
      cases h
      have hnew : workers i = .notCreated := hC.created i (Nat.le_refl _)
      have hsum := total_update (Wrapper.steps MAX DEQUEUE) workers i (.forEnqueue 0)
      rw [hnew] at hsum
      simp only [State.steps, Main.steps, Wrapper.steps, Nat.sub_zero] at hsum ⊢
      omega
  | join i =>
      simp only [mainStep, Option.ite_none_right_eq_some, Option.some.injEq] at h
      obtain ⟨-, rfl⟩ := h
      have hi := i.isLt
      simp only [State.steps, Main.steps]
      omega
  | returned => cases h

variable [DecidableEq α] {d : α} {s s' : State n α}

/-- Where a state of the program stands as a state of threads that make calls. -/
theorem reachable_calls (h : (main n MAX DEQUEUE d).Reachable s) :
    Control s ∧ (program (fun _ => wrapperCalls MAX DEQUEUE) d).Reachable
      (calls MAX DEQUEUE s) := by
  obtain ⟨ls, hls⟩ := h
  obtain ⟨_, hrun, hC, rfl⟩ := (main_simulates n MAX DEQUEUE d).reaches hls
  exact ⟨hC, hrun.reachable⟩

theorem workers_ne_unlockEmpty (hle : DEQUEUE ≤ MAX) (h : (main n MAX DEQUEUE d).Reachable s)
    (i : Fin n) (k : Nat) : s.workers i ≠ .dequeue k .unlockEmpty := by
  intro hi
  refine pc_ne_unlockEmpty (fun _ => wrapperCalls_covered hle) (reachable_calls h).2 i ?_
  simp only [calls, hi, Wrapper.asWorker]

/-- Every step of the program is one of those that are left. -/
theorem next_steps (hle : DEQUEUE ≤ MAX) (h : (main n MAX DEQUEUE d).Reachable s) {l : Act n α}
    (hstep : next MAX DEQUEUE l s = some s') :
    s'.steps MAX DEQUEUE + 1 = s.steps MAX DEQUEUE := by
  have hs' : (main n MAX DEQUEUE d).Reachable s' := h.next hstep
  cases l with
  | main => exact mainStep_steps (reachable_calls h).1 hstep
  | worker t m =>
      simp only [next, Option.map_eq_some_iff, Prod.exists] at hstep
      obtain ⟨q, w, hw, rfl⟩ := hstep
      have hsum := total_update (Wrapper.steps MAX DEQUEUE) s.workers t w
      have hone := enqueueWrapper_steps hw fun k hk =>
        workers_ne_unlockEmpty hle hs' t k ((Function.update_self ..).trans hk)
      simp only [State.steps]
      omega

/-! ## Who can move in the program -/

/-- The workers that `main` has created are there. -/
def Started (s : State n α) : Prop :=
  ∀ k : Fin n, k.val < s.main.created → s.workers k ≠ .notCreated

/-- No step leads back to where a worker was not yet created. -/
theorem enqueueWrapper_ne_notCreated {t : Fin n} {m : Malloc α} {q q' : Queue (Fin n) α}
    {w w' : Wrapper α} (h : enqueueWrapper MAX DEQUEUE t m q w = some (q', w')) :
    w' ≠ .notCreated := by
  cases w with
  | notCreated | finished => cases h
  | forEnqueue i | forDequeue i =>
      cases h
      split <;> simp
  | enqueue i p | dequeue i p =>
      simp only [enqueueWrapper, Option.map_eq_some_iff, Prod.mk.injEq, Prod.exists] at h
      obtain ⟨q₁, k, -, -, rfl⟩ := h
      cases k <;> simp

theorem started_inductive (n MAX DEQUEUE : Nat) (d : α) :
    (main n MAX DEQUEUE d).Inductive Started where
  init := fun _ hk => absurd hk (Nat.not_lt_zero _)
  step := by
    intro l s s' hS h
    cases l with
    | worker t m =>
        simp only [main, next, Option.map_eq_some_iff, Prod.exists] at h
        obtain ⟨q, w, hw, rfl⟩ := h
        intro k hk
        by_cases hkt : k = t
        · subst hkt
          simpa using enqueueWrapper_ne_notCreated hw
        · simpa [Function.update_of_ne hkt] using hS k hk
    | main =>
        obtain ⟨q, pc, workers⟩ := s
        cases pc with
        | forCreate i =>
            cases h
            intro k hk
            refine hS k ?_
            by_cases hi : i < n
            · rwa [dif_pos hi] at hk
            · exact Nat.lt_of_lt_of_le k.isLt (Nat.not_lt.mp hi)
        | create i =>
            cases h
            intro k hk
            by_cases hki : k = i
            · subst hki
              simp
            · rcases Nat.lt_succ_iff_lt_or_eq.mp hk with hlt | heq
              · simpa [Function.update_of_ne hki] using hS k hlt
              · exact absurd (Fin.ext heq) hki
        | forJoin i =>
            cases h
            intro k _
            exact hS k k.isLt
        | join i =>
            simp only [main, next, mainStep, Option.ite_none_right_eq_some, Option.some.injEq] at h
            obtain ⟨-, rfl⟩ := h
            intro k _
            exact hS k k.isLt
        | returned => cases h

/-- A worker that has been created moves when its call does. -/
theorem enqueueWrapper_isSome {t : Fin n} {m : Malloc α} {q : Queue (Fin n) α} {w : Wrapper α}
    (hw : w ≠ .notCreated) (h : (worker t m q (w.asWorker MAX DEQUEUE)).isSome) :
    (enqueueWrapper MAX DEQUEUE t m q w).isSome := by
  cases w with
  | notCreated => exact absurd rfl hw
  | finished => cases h
  | forEnqueue i | forDequeue i => rfl
  | enqueue i p | dequeue i p => simpa [worker, Wrapper.asWorker, enqueueWrapper] using h

/-- The program can go on until `main` has returned. -/
theorem main_canMove [Infinite α] (h : (main n MAX DEQUEUE d).Reachable s)
    (hmain : s.main ≠ .returned) : (main n MAX DEQUEUE d).CanMove s := by
  obtain ⟨-, hcalls⟩ := reachable_calls h
  obtain ⟨L, hI, hR⟩ := (memory_inductive _ d).reachable hcalls
  have hmoves : (mainStep s s.main).isSome → (main n MAX DEQUEUE d).CanMove s := by
    intro hsome
    obtain ⟨s', hs'⟩ := Option.isSome_iff_exists.mp hsome
    exact ⟨.main, s', hs'⟩
  cases hpc : s.main with
  | forCreate i | create i | forJoin i => exact hmoves (by rw [hpc]; rfl)
  | returned => exact absurd hpc hmain
  | join i =>
      by_cases hfinished : s.workers i = .finished
      · exact hmoves (by rw [hpc, mainStep, if_pos hfinished]; rfl)
      · have hmove : ∀ {m j}, (enqueueWrapper MAX DEQUEUE j m s.q (s.workers j)).isSome →
            (main n MAX DEQUEUE d).CanMove s := by
          intro m j hj
          obtain ⟨r, hr⟩ := Option.isSome_iff_exists.mp hj
          exact ⟨.worker j m, _, by simp only [main, next, hr, Option.map_some]; rfl⟩
        have hcreated : ∀ j, s.workers j ≠ .notCreated := fun j =>
          (started_inductive n MAX DEQUEUE d).reachable h j (by rw [hpc]; exact j.isLt)
        -- the joined worker has something to do, if only to leave its loop
        by_cases hbusy : (calls MAX DEQUEUE s).threads i = ⟨.idle, []⟩
        · have hloop : (enqueueWrapper MAX DEQUEUE i ⟨d, ⟨0, none⟩⟩ s.q (s.workers i)).isSome := by
            cases hw : s.workers i with
            | notCreated => exact absurd hw (hcreated i)
            | finished => exact absurd hw hfinished
            | forEnqueue k | forDequeue k => rfl
            | enqueue k p | dequeue k p => simp [calls, hw, Wrapper.asWorker] at hbusy
          exact hmove hloop
        · obtain ⟨m, j, hj⟩ := hI.exists_move hR hbusy
          exact hmove (enqueueWrapper_isSome (hcreated j) hj)

/-! ## The end of the program -/

theorem sum_const (n k : Nat) : ∑ _i : Fin n, k = n * k := by
  rw [Finset.sum_const_nat fun _ _ => rfl, Finset.card_univ, Fintype.card_fin]

/-- **`queue.c` ends, and leaks nothing**: under every schedule and whatever addresses
`malloc` gives out, all complete runs of the program take the same number of steps, 9 for each
`enqueue`, 7 for each `dequeue` and 6 for each thread, and two more; then `main` has joined all
threads, both locks are free, and the memory holds the dummy and the
`n * (MAX - DEQUEUE)` nodes that are left in the queue, and nothing else. -/
theorem queue_ends [Infinite α] (hle : DEQUEUE ≤ MAX) (n : Nat) (d : α) :
    (main n MAX DEQUEUE d).EndsWithin (n * (9 * MAX + 7 * DEQUEUE + 6) + 2) fun ls s =>
      ls.length = n * (9 * MAX + 7 * DEQUEUE + 6) + 2
        ∧ s.main = .returned ∧ (∀ i, s.workers i = .finished)
        ∧ s.q.headlock = none ∧ s.q.taillock = none
        ∧ ∃ L, IsChain s.q.link (s.q.head :: L) ∧ L.length = n * (MAX - DEQUEUE)
          ∧ ∀ a, s.q.heap a ≠ none ↔ a ∈ s.q.head :: L := by
  have hlength : ∀ {ls s}, (main n MAX DEQUEUE d).Reaches ls s →
      ls.length + s.steps MAX DEQUEUE = n * (9 * MAX + 7 * DEQUEUE + 6) + 2 := by
    intro ls s hrun
    have hstart : (start n d).steps MAX DEQUEUE = n * (9 * MAX + 7 * DEQUEUE + 6) + 2 := by
      simp only [State.steps, start, Main.steps, total, Wrapper.steps, sum_const]
      rw [show 9 * MAX + 7 * DEQUEUE + 6 = 9 * MAX + 7 * DEQUEUE + 2 + 4 by omega,
        Nat.mul_add n (9 * MAX + 7 * DEQUEUE + 2) 4]
      omega
    rw [← hstart]
    refine Inductive.length_eq (I := (main n MAX DEQUEUE d).Reachable)
      ⟨⟨[], rfl⟩, Reachable.next⟩ (fun hs hstep => next_steps hle hs hstep) ⟨[], rfl⟩ hrun
  constructor
  · intro ls s hrun
    have := hlength hrun
    omega
  · intro ls s hrun hstuck
    have hreturned : s.main = .returned := by
      by_contra hmain
      exact hstuck (main_canMove hrun.reachable hmain)
    obtain ⟨_, hcalls, hC, rfl⟩ := (main_simulates n MAX DEQUEUE d).reaches hrun
    have hfinished : ∀ i, s.workers i = .finished := by
      intro i
      refine hC.joined i ?_
      rw [hreturned]
      exact i.isLt
    have hdone : ∀ i, (calls MAX DEQUEUE s).threads i = ⟨.idle, []⟩ := by
      intro i
      simp only [calls, hfinished i, Wrapper.asWorker]
    obtain ⟨L, hI, hR⟩ := (memory_inductive _ d).reachable hcalls.reachable
    obtain ⟨L', old, rest, hchain, hcount, -⟩ :=
      settled (fun _ => wrapperCalls_covered hle) hcalls hdone
    obtain rfl : L = L' := List.tail_eq_of_cons_eq (hI.chain.unique hchain rfl)
    obtain ⟨hheadlock, htaillock, hheap⟩ := hI.settled hR hdone
    refine ⟨?_, hreturned, hfinished, hheadlock, htaillock, L, hchain, ?_, hheap⟩
    · have hnone : s.steps MAX DEQUEUE = 0 := by
        rw [State.steps, hreturned, total_eq_zero fun i => by rw [hfinished i]; rfl]
        rfl
      have := hlength hrun
      omega
    · simp only [countP_isEnqueue_wrapperCalls, countP_isDequeue_wrapperCalls, sum_const] at hcount
      rw [Nat.mul_sub]
      omega

/-- Two threads that enqueue two values each and dequeue one, from the start to the end. -/
theorem queue_ends_two : ∃ (ls : List (Act 2 Nat)) (s : State 2 Nat),
    (main 2 2 1 0).Reaches ls s ∧ ls.length = 64 ∧ s.main = .returned := by
  obtain ⟨ls, s, hrun, -, hlen, hreturned, -⟩ :=
    (queue_ends (show 1 ≤ 2 by decide) 2 (0 : Nat)).exists_run
  exact ⟨ls, s, hrun, hlen, hreturned⟩

end Main
end CAdvanced.TwoLockQueue
