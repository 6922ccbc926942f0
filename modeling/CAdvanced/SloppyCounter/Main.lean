import CAdvanced.SloppyCounter.Invariant

/-!
# SloppyCounter — Main

The whole program of `sloppy-counter.c`. `main` creates one thread for each slot, and
hands all of them the address of ONE `threadWrapper`: `tw` is local to the body of
the loop, but every iteration finds it in the same place and assigns it anew, and
`incrementWrapper` reads `thread->count` and `thread->id` again in each of its own
iterations. A step of `main` is one store to `tw`, one creation, one join, one loop
test or one step of `get`.

`main_simulates` connects the program with `Model`: whatever the workers read from
`tw`, what they do to the counter is a run of threads that call `increment` and `get`.
-/

namespace CAdvanced.SloppyCounter

open Interleave System

/-- What `tw.count` can point to. -/
inductive CounterPtr where
  | count
  deriving DecidableEq, Repr

/-- `threadWrapper`, as far as it has been assigned. -/
structure ThreadWrapper (n : Nat) where
  count : Option CounterPtr
  id : Option (Fin n)
  deriving DecidableEq, Repr

/-- The program points of `main`: its two loops over the threads, and the call of `get`. -/
inductive Main (n : Nat) where
  | forCreate (i : Nat)
  | storeId (i : Fin n)
  | storeCount (i : Fin n)
  | create (i : Fin n)
  | forJoin (i : Nat)
  | join (i : Fin n)
  | get (p : Get)
  | printed (rc : Int)
  deriving DecidableEq, Repr

/-- The program points of `incrementWrapper`. -/
inductive WrapperPc (n : Nat) where
  | notCreated
  | loop
  | loadCount
  | loadId
  | increment (threadId : Fin n) (p : Increment)
  | finished
  deriving DecidableEq, Repr

/-- A worker: where it stands, and its loop counter. -/
structure Wrapper (n : Nat) where
  pc : WrapperPc n
  i : Nat
  deriving DecidableEq, Repr

/-- The threads of the program; as many workers as slots. -/
inductive Tid (n : Nat) where
  | main
  | worker (i : Fin n)
  deriving DecidableEq, Repr

/-- The state of the program. -/
structure State (n : Nat) where
  count : Counter (Tid n) n
  tw : ThreadWrapper n
  main : Main n
  workers : Fin n → Wrapper n

section Code
variable {n : Nat}

/-- `incrementWrapper`, one step of worker `i`. -/
def incrementWrapper (MAX : Nat) (i : Fin n) (c : Counter (Tid n) n) (tw : ThreadWrapper n) :
    Wrapper n → Option (Counter (Tid n) n × Wrapper n)
  | ⟨.notCreated, _⟩ => none
  | ⟨.loop, k⟩ => some (c, ⟨if k < MAX then .loadCount else .finished, k⟩)
  | ⟨.loadCount, k⟩ => tw.count.map fun
      | .count => (c, ⟨.loadId, k⟩)
  | ⟨.loadId, k⟩ => tw.id.map fun threadId => (c, ⟨.increment threadId .lockLocal, k⟩)
  | ⟨.increment threadId p, k⟩ => (increment (.worker i) threadId c p).map fun r =>
      (r.1, r.2.resume (fun p => ⟨.increment threadId p, k⟩) ⟨.loop, k + 1⟩)
  | ⟨.finished, _⟩ => none

/-- `main`, one step. -/
def mainStep (s : State n) : Main n → Option (State n)
  | .forCreate i =>
      some { s with main := if h : i < n then .storeId ⟨i, h⟩ else .forJoin 0 }
  | .storeId i => some { s with tw := { s.tw with id := some i }, main := .storeCount i }
  | .storeCount i => some { s with tw := { s.tw with count := some .count }, main := .create i }
  | .create i =>
      some { s with
        workers := Function.update s.workers i ⟨.loop, 0⟩
        main := .forCreate (i + 1) }
  | .forJoin i =>
      some { s with main := if h : i < n then .join ⟨i, h⟩ else .get .lockGlobal }
  | .join i =>
      if (s.workers i).pc = .finished then some { s with main := .forJoin (i + 1) } else none
  | .get p => (get .main s.count p).map fun r =>
      { s with
        count := r.1
        main := match r.2 with
          | .inl p => .get p
          | .inr rc => .printed rc }
  | .printed _ => none

/-- One step of a thread. -/
def next (MAX : Nat) : Tid n → State n → Option (State n)
  | .main, s => mainStep s s.main
  | .worker i, s => (incrementWrapper MAX i s.count s.tw (s.workers i)).map fun r =>
      { s with count := r.1, workers := Function.update s.workers i r.2 }

/-- `main` at its start: the counter is initialised, no thread is created. -/
def start (n : Nat) (threshold : Int) : State n where
  count := init (Tid n) n threshold
  tw := ⟨none, none⟩
  main := .forCreate 0
  workers := fun _ => ⟨.notCreated, 0⟩

end Code

/-- The whole program, with `THREADS` = `n`. -/
def main (n MAX : Nat) (threshold : Int) : System (State n) (Tid n) :=
  ⟨start n threshold, next MAX⟩

/-! ## The calls of the program -/

section Calls
variable {n : Nat}

/-- The thread that runs `main`, as a thread that calls `get`. -/
@[simp] def Main.asWorker : Main n → Worker n
  | .get p => ⟨.get p, []⟩
  | .printed rc => ⟨.idle, [rc]⟩
  | _ => ⟨.idle, []⟩

/-- A thread that runs `incrementWrapper`, as a thread that calls `increment`. -/
@[simp] def Wrapper.asWorker (w : Wrapper n) : Worker n :=
  match w.pc with
  | .increment threadId p => ⟨.increment threadId p, []⟩
  | _ => ⟨.idle, []⟩

/-- The program as threads that call `increment` and `get`. -/
def calls (s : State n) : Conf (Tid n) (Counter (Tid n) n) (Worker n) where
  shared := s.count
  threads
    | .main => s.main.asWorker
    | .worker i => (s.workers i).asWorker

/-- The step of a call that a step of the program is, if it is one. -/
def callStep : Tid n → State n → Option (Move (Tid n) n)
  | .main, s =>
      match s.main with
      | .forJoin i => if i < n then none else some ⟨.main, .get⟩
      | .get _ => some ⟨.main, .get⟩
      | _ => none
  | .worker i, s =>
      match (s.workers i).pc with
      | .loadId => s.tw.id.map fun threadId => ⟨.worker i, .increment threadId⟩
      | .increment threadId _ => some ⟨.worker i, .increment threadId⟩
      | _ => none

/-! ## Where the threads stand -/

/-- How many threads `main` has created. -/
@[simp] def Main.created : Main n → Nat
  | .forCreate i => i
  | .storeId i | .storeCount i | .create i => i
  | _ => n

/-- How often `main` has assigned `tw.id`. -/
@[simp] def Main.idStores : Main n → Nat
  | .forCreate i => i
  | .storeId i => i
  | .storeCount i | .create i => i + 1
  | _ => n

/-- How many threads `main` has joined. -/
@[simp] def Main.joined : Main n → Nat
  | .forJoin i => i
  | .join i => i
  | .get _ | .printed _ => n
  | _ => 0

/-- The value that `main` has loaded, or printed. -/
@[simp] def Main.loaded : Main n → Option Int
  | .get (.unlockGlobal rc) | .printed rc => some rc
  | _ => none

/-- The loop counter of a worker fits to where it stands. -/
@[simp] def Wrapper.Counts (MAX : Nat) (w : Wrapper n) : Prop :=
  match w.pc with
  | .notCreated => w.i = 0
  | .loop => w.i ≤ MAX
  | .loadCount | .loadId | .increment _ _ => w.i < MAX
  | .finished => w.i = MAX

/-- Where `main` and the workers stand with respect to each other. -/
structure Control (MAX : Nat) (s : State n) : Prop where
  created_le : s.main.created ≤ n
  joined_le : s.main.joined ≤ n
  created : ∀ k, (s.workers k).pc = .notCreated ↔ s.main.created ≤ k
  joined : ∀ k, k.val < s.main.joined → (s.workers k).pc = .finished
  counts : ∀ k, (s.workers k).Counts MAX
  assigned : ∀ k : Fin n, k.val + 1 = s.main.idStores → s.tw.id = some k

theorem control_start (MAX : Nat) (threshold : Int) : Control MAX (start n threshold) where
  created_le := Nat.zero_le n
  joined_le := Nat.zero_le n
  created := fun _ => ⟨fun _ => Nat.zero_le _, fun _ => rfl⟩
  joined := fun _ h => absurd h (Nat.not_lt_zero _)
  counts := fun _ => rfl
  assigned := fun _ h => absurd h (Nat.succ_ne_zero _)

/-- A worker takes a step of its own code. -/
theorem incrementWrapper_counts {MAX : Nat} {i : Fin n} {c c' : Counter (Tid n) n}
    {tw : ThreadWrapper n} {w w' : Wrapper n}
    (h : incrementWrapper MAX i c tw w = some (c', w')) (hw : w.Counts MAX) :
    w.pc ≠ .notCreated ∧ w.pc ≠ .finished ∧ w'.pc ≠ .notCreated ∧ w'.Counts MAX := by
  obtain ⟨pc, k⟩ := w
  cases pc with
  | notCreated | finished => cases h
  | loop =>
      simp only [incrementWrapper, Option.some.injEq, Prod.mk.injEq] at h
      obtain ⟨-, rfl⟩ := h
      simp only [Wrapper.Counts] at hw
      split <;> simp <;> omega
  | loadCount | loadId =>
      simp only [incrementWrapper, Option.map_eq_some_iff, Prod.mk.injEq] at h
      obtain ⟨a, -, -, rfl⟩ := h
      simpa using hw
  | increment threadId p =>
      simp only [incrementWrapper, Option.map_eq_some_iff, Prod.mk.injEq] at h
      obtain ⟨⟨c₁, q⟩, -, -, rfl⟩ := h
      cases q with
      | goto p => simpa using hw
      | ret => exact ⟨nofun, nofun, nofun, hw⟩

theorem Control.step {MAX : Nat} {l : Tid n} {s s' : State n} (hC : Control MAX s)
    (h : next MAX l s = some s') : Control MAX s' := by
  cases l with
  | worker i =>
      simp only [next, Option.map_eq_some_iff] at h
      obtain ⟨⟨c, w⟩, hstep, rfl⟩ := h
      obtain ⟨hcreated, hfinished, hcreated', hcounts⟩ :=
        incrementWrapper_counts hstep (hC.counts i)
      have hpc : ∀ k, ((Function.update s.workers i w k).pc = .notCreated
          ↔ (s.workers k).pc = .notCreated)
          ∧ ((s.workers k).pc = .finished → (Function.update s.workers i w k).pc = .finished) := by
        intro k
        by_cases hk : k = i
        · subst hk
          rw [Function.update_self]
          exact ⟨⟨fun h => absurd h hcreated', fun h => absurd h hcreated⟩,
            fun h => absurd h hfinished⟩
        · rw [Function.update_of_ne hk]
          exact ⟨Iff.rfl, id⟩
      refine ⟨hC.created_le, hC.joined_le, fun k => (hpc k).1.trans (hC.created k),
        fun k hk => (hpc k).2 (hC.joined k hk), ?_, hC.assigned⟩
      intro k
      show (Function.update s.workers i w k).Counts MAX
      by_cases hk : k = i
      · rw [hk, Function.update_self]
        exact hcounts
      · rw [Function.update_of_ne hk]
        exact hC.counts k
  | main =>
      obtain ⟨count, tw, pc, workers⟩ := s
      have hle := hC.created_le
      have hjoined_le := hC.joined_le
      cases pc with
      | forCreate i =>
          cases h
          by_cases hi : i < n
          · simp only [dif_pos hi]
            exact ⟨hle, Nat.zero_le n, hC.created, hC.joined, hC.counts, hC.assigned⟩
          · have hin : i = n := Nat.le_antisymm hle (Nat.not_lt.mp hi)
            subst hin
            simp only [dif_neg hi]
            exact ⟨hle, Nat.zero_le _, hC.created, hC.joined, hC.counts, hC.assigned⟩
      | storeId i =>
          cases h
          exact ⟨hle, hjoined_le, hC.created, hC.joined, hC.counts,
            fun k hk => congrArg some (Fin.ext (Nat.succ.inj hk).symm)⟩
      | storeCount i =>
          cases h
          exact ⟨hle, hjoined_le, hC.created, hC.joined, hC.counts, hC.assigned⟩
      | create i =>
          cases h
          refine ⟨i.isLt, Nat.zero_le n, ?_, fun k hk => absurd hk (Nat.not_lt_zero _), ?_,
            hC.assigned⟩
          · intro k
            show (Function.update workers i ⟨.loop, 0⟩ k).pc = .notCreated ↔ i.val + 1 ≤ k.val
            by_cases hk : k = i
            · rw [hk, Function.update_self]
              exact ⟨nofun, fun h => absurd h (Nat.not_succ_le_self _)⟩
            · have hval : k.val ≠ i.val := fun h => hk (Fin.ext h)
              have hcreated := hC.created k
              simp only [Main.created] at hcreated
              rw [Function.update_of_ne hk, hcreated]
              omega
          · intro k
            show (Function.update workers i ⟨.loop, 0⟩ k).Counts MAX
            by_cases hk : k = i
            · rw [hk, Function.update_self]
              exact Nat.zero_le MAX
            · rw [Function.update_of_ne hk]
              exact hC.counts k
      | forJoin i =>
          cases h
          by_cases hi : i < n
          · simp only [dif_pos hi]
            exact ⟨hle, hjoined_le, hC.created, hC.joined, hC.counts, hC.assigned⟩
          · have hin : i = n := Nat.le_antisymm hjoined_le (Nat.not_lt.mp hi)
            subst hin
            simp only [dif_neg hi]
            exact ⟨hle, hjoined_le, hC.created, hC.joined, hC.counts, hC.assigned⟩
      | join i =>
          simp only [next, mainStep, Option.ite_none_right_eq_some, Option.some.injEq] at h
          obtain ⟨hfinished, rfl⟩ := h
          refine ⟨hle, i.isLt, hC.created, ?_, hC.counts, hC.assigned⟩
          intro k hk
          rcases Nat.lt_succ_iff_lt_or_eq.mp hk with hlt | heq
          · exact hC.joined k hlt
          · rw [Fin.ext heq]
            exact hfinished
      | get p =>
          simp only [next, mainStep, Option.map_eq_some_iff] at h
          obtain ⟨⟨c, q⟩, -, rfl⟩ := h
          cases q <;> exact ⟨hle, hjoined_le, hC.created, hC.joined, hC.counts, hC.assigned⟩
      | printed rc => cases h

/-! ## The program makes calls -/

theorem calls_worker (s : State n) (i : Fin n) (c : Counter (Tid n) n) (w : Wrapper n) :
    calls { s with count := c, workers := Function.update s.workers i w }
      = ⟨c, Function.update (calls s).threads (.worker i) w.asWorker⟩ := by
  unfold calls
  congr 1
  ext l : 1
  cases l with
  | main => rfl
  | worker k =>
      by_cases hk : k = i
      · subst hk
        simp only [Function.update_self]
      · have hne : Tid.worker k ≠ Tid.worker i := fun h => hk (Tid.worker.inj h)
        simp only [Function.update_of_ne hk, Function.update_of_ne hne]

theorem calls_main (s : State n) (c : Counter (Tid n) n) (m : Main n) :
    calls { s with count := c, main := m }
      = ⟨c, Function.update (calls s).threads .main m.asWorker⟩ := by
  unfold calls
  congr 1
  ext l : 1
  cases l with
  | main => simp only [Function.update_self]
  | worker k => simp only [Function.update_of_ne (show Tid.worker k ≠ Tid.main from nofun)]

/-- The moves of the calls, and the loop counters that move with them. -/
structure CallSpec (m : Move (Tid n) n) (l : Tid n) (s s' : State n) : Prop where
  tid : m.tid = l
  step : (calls s).step (worker m.tid m.op) m.tid = some (calls s')
  counter : ∀ k, (s'.workers k).i
    = (s.workers k).i + if l = .worker k then (completes m (calls s)).toNat else 0

/-- A step of a worker that is no step of a call. -/
theorem calls_worker_silent {s : State n} {i : Fin n} {w : Wrapper n}
    (hw : w.asWorker = (s.workers i).asWorker) (hi : w.i = (s.workers i).i) :
    calls { s with workers := Function.update s.workers i w } = calls s
      ∧ ∀ k, (Function.update s.workers i w k).i = (s.workers k).i := by
  constructor
  · have hcalls := calls_worker s i s.count w
    rw [hw, show (s.workers i).asWorker = (calls s).threads (.worker i) from rfl,
      Function.update_eq_self] at hcalls
    exact hcalls
  · intro k
    by_cases hk : k = i
    · rw [hk, Function.update_self, hi]
    · rw [Function.update_of_ne hk]

/-- A step of a worker that is one of its call. -/
theorem calls_worker_call {s : State n} {i : Fin n} {c : Counter (Tid n) n} {w : Wrapper n}
    {op : Op n} (hstep : worker (.worker i) op s.count (s.workers i).asWorker
      = some (c, w.asWorker))
    (hi : w.i = (s.workers i).i + (completes ⟨.worker i, op⟩ (calls s)).toNat) :
    CallSpec ⟨.worker i, op⟩ (.worker i) s
      { s with count := c, workers := Function.update s.workers i w } := by
  refine ⟨rfl, Conf.step_eq_some.mpr ⟨c, w.asWorker, hstep, calls_worker s i c w⟩, ?_⟩
  intro k
  show (Function.update s.workers i w k).i = _
  by_cases hk : k = i
  · rw [hk, Function.update_self, if_pos rfl, hi]
  · rw [Function.update_of_ne hk, if_neg fun h => hk (Tid.worker.inj h).symm, Nat.add_zero]

/-- A step of `main` that is no step of a call. -/
theorem calls_main_silent {s : State n} {tw : ThreadWrapper n} {m : Main n}
    (hm : m.asWorker = s.main.asWorker) :
    calls { s with tw := tw, main := m } = calls s := by
  have hcalls := calls_main s s.count m
  rw [hm, show s.main.asWorker = (calls s).threads .main from rfl,
    Function.update_eq_self] at hcalls
  exact hcalls

/-- A step of `main` that is one of `get`. -/
theorem calls_main_call {s : State n} {c : Counter (Tid n) n} {m : Main n}
    (hstep : worker .main .get s.count s.main.asWorker = some (c, m.asWorker)) :
    CallSpec ⟨.main, .get⟩ .main s { s with count := c, main := m } := by
  refine ⟨rfl, Conf.step_eq_some.mpr ⟨c, m.asWorker, hstep, calls_main s c m⟩, ?_⟩
  intro k
  rw [if_neg nofun, Nat.add_zero]

/-- **One step of the program** is one step of a call, or none at all. -/
theorem next_calls {MAX : Nat} {l : Tid n} {s s' : State n} (hC : Control MAX s)
    (h : next MAX l s = some s') :
    (callStep l s = none ∧ calls s' = calls s ∧ ∀ k, (s'.workers k).i = (s.workers k).i)
      ∨ ∃ m, callStep l s = some m ∧ CallSpec m l s s' := by
  cases l with
  | worker i =>
      simp only [next, Option.map_eq_some_iff] at h
      obtain ⟨⟨c, w'⟩, hstep, rfl⟩ := h
      cases hw : s.workers i with
      | mk pc k =>
          rw [hw] at hstep
          cases pc with
          | notCreated | finished => cases hstep
          | loop =>
              simp only [incrementWrapper, Option.some.injEq, Prod.mk.injEq] at hstep
              obtain ⟨rfl, rfl⟩ := hstep
              refine .inl ⟨by simp only [callStep, hw], calls_worker_silent ?_ ?_⟩
              · rw [hw]
                split <;> rfl
              · rw [hw]
          | loadCount =>
              simp only [incrementWrapper, Option.map_eq_some_iff, Prod.mk.injEq] at hstep
              obtain ⟨ptr, -, rfl, rfl⟩ := hstep
              refine .inl ⟨by simp only [callStep, hw], calls_worker_silent ?_ ?_⟩
              · rw [hw]
                rfl
              · rw [hw]
          | loadId =>
              simp only [incrementWrapper, Option.map_eq_some_iff, Prod.mk.injEq] at hstep
              obtain ⟨threadId, hid, rfl, rfl⟩ := hstep
              refine .inr ⟨⟨.worker i, .increment threadId⟩, ?_, calls_worker_call ?_ ?_⟩
              · simp only [callStep, hw, hid, Option.map_some]
              · rw [hw]
                rfl
              · simp only [completes, calls, hw, Wrapper.asWorker, Bool.toNat_false, Nat.add_zero]
          | increment threadId p =>
              simp only [incrementWrapper, Option.map_eq_some_iff, Prod.mk.injEq] at hstep
              obtain ⟨⟨c₁, q⟩, hstep, rfl, rfl⟩ := hstep
              have hends := (increment_spec hstep).ends
              refine .inr ⟨⟨.worker i, .increment threadId⟩, ?_, calls_worker_call ?_ ?_⟩
              · simp only [callStep, hw]
              · rw [hw]
                simp only [Wrapper.asWorker, worker, hstep]
                cases q <;> rfl
              · have hcompletes : completes ⟨.worker i, .increment threadId⟩ (calls s)
                    = p.returns := by
                  simp only [completes, calls, hw, Wrapper.asWorker]
                  cases p <;> rfl
                rw [hcompletes, hw, ← hends]
                cases q <;> rfl
  | main =>
      obtain ⟨count, tw, pc, workers⟩ := s
      cases pc with
      | forCreate i =>
          cases h
          refine .inl ⟨rfl, calls_main_silent ?_, fun _ => rfl⟩
          split <;> rfl
      | storeId i | storeCount i =>
          cases h
          exact .inl ⟨rfl, calls_main_silent rfl, fun _ => rfl⟩
      | create i =>
          cases h
          -- the worker was not there yet
          have hnew : (workers i).pc = .notCreated := (hC.created i).mpr (Nat.le_refl _)
          have hcounts : (workers i).Counts MAX := hC.counts i
          rw [Wrapper.Counts, hnew] at hcounts
          obtain ⟨hcalls, hcounter⟩ := calls_worker_silent
            (s := ⟨count, tw, .create i, workers⟩) (i := i) (w := ⟨.loop, 0⟩)
            (by rw [Wrapper.asWorker, Wrapper.asWorker, hnew]) hcounts.symm
          exact .inl ⟨rfl, (calls_main_silent (m := .forCreate (i + 1)) rfl).trans hcalls,
            hcounter⟩
      | forJoin i =>
          cases h
          by_cases hi : i < n
          · refine .inl ⟨if_pos hi, calls_main_silent ?_, fun _ => rfl⟩
            rw [dif_pos hi]
            rfl
          · refine .inr ⟨_, if_neg hi, ?_⟩
            rw [dif_neg hi]
            exact calls_main_call rfl
      | join i =>
          simp only [next, mainStep, Option.ite_none_right_eq_some, Option.some.injEq] at h
          obtain ⟨-, rfl⟩ := h
          exact .inl ⟨rfl, calls_main_silent (s := ⟨count, tw, .join i, workers⟩) rfl,
            fun _ => rfl⟩
      | get p =>
          simp only [next, mainStep, Option.map_eq_some_iff] at h
          obtain ⟨⟨c, q⟩, hstep, rfl⟩ := h
          refine .inr ⟨_, rfl, calls_main_call ?_⟩
          simp only [Main.asWorker, worker, hstep]
          cases q <;> rfl
      | printed rc => cases h

theorem calls_start (n : Nat) (threshold : Int) :
    calls (start n threshold) = initial (Tid n) n threshold := by
  unfold calls initial
  congr 1
  ext l : 1
  cases l <;> rfl

/-- **The program is a run of threads that call `increment` and `get`.** -/
theorem main_simulates (n MAX : Nat) (threshold : Int) :
    (main n MAX threshold).Simulation (program (Tid n) n threshold) callStep
      (fun s a => Control MAX s ∧ a = calls s) where
  init := ⟨control_start MAX threshold, (calls_start n threshold).symm⟩
  step := by
    intro l s s' a hR hstep
    obtain ⟨hC, rfl⟩ := hR
    have hC' := hC.step hstep
    rcases next_calls hC hstep with ⟨hnone, hcalls, -⟩ | ⟨m, hm, hcall⟩
    · rw [hnone]
      exact ⟨calls s, rfl, hC', hcalls.symm⟩
    · rw [hm]
      exact ⟨calls s', exec_singleton.trans hcall.step, hC', rfl⟩

end Calls
end CAdvanced.SloppyCounter
