import CAdvanced.SimpleCounter.Model
import Mathlib.Algebra.BigOperators.Group.List.Basic

/-!
# SimpleCounter — Linearizability

What the callers of one counter see of each other. Whoever calls what, a `get` returns the
increments less the decrements that have let go of the lock before it, as an `int`; and
`main`, whose threads run `increment` once each, always prints how many threads it had.
-/

namespace CAdvanced.SimpleCounter

open Interleave System CInt

/-- What the functions do when they happen at once. -/
def apply : Op → Int → Int × Option Int
  | .increment, value => (signed 32 (value + 1), none)
  | .decrement, value => (signed 32 (value - 1), none)
  | .get, value => (value, some value)

/-- The steps that a body has left. -/
def Point.cost : Point → Nat
  | .loadIncrement | .loadDecrement => 2
  | .storeIncrement _ | .storeDecrement _ | .loadGet => 1

theorem counter_implements : counter.Implements apply Point.cost where
  does op _ := by
    cases op with
    | increment => exact .goto rfl (.ret rfl)
    | decrement => exact .goto rfl (.ret rfl)
    | get => exact .ret rfl
  goto {_ p _ _} h := by
    cases p <;> cases h <;> rfl
  ret {_ p _ _} h := by
    cases p <;> cases h <;> rfl

/-! ## The sequential counter -/

/-- What a function adds to the counter. -/
def Op.change : Op → Int
  | .increment => 1
  | .decrement => -1
  | .get => 0

variable {ι : Type}

/-- The increments less the decrements among some calls. -/
def net (log : List (ι × Op × Option Int)) : Int := (log.map fun e => e.2.1.change).sum

/-- The wraps of the single calls add up to one. -/
theorem apply_fst (op : Op) (x : Int) :
    (apply op (signed 32 x)).1 = signed 32 (x + op.change) := by
  cases op with
  | increment => exact signed_add x 1
  | decrement => exact (signed_sub x 1).trans (congrArg _ (Int.sub_eq_add_neg))
  | get => exact congrArg (signed 32) (Int.add_zero x).symm

theorem atomic_exec {log : List (ι × Op × Option Int)} {x w : Int}
    (h : (counter.atomic apply).exec log (signed 32 x) = some w) :
    w = signed 32 (x + net log) ∧ ∀ before i op r after, log = before ++ (i, op, r) :: after →
      r = (apply op (signed 32 (x + net before))).2 := by
  induction log generalizing x with
  | nil =>
      cases h
      exact ⟨congrArg _ (Int.add_zero x).symm,
        fun before i op r after hlog => by cases before <;> cases hlog⟩
  | cons e log ih =>
      obtain ⟨i, op, r⟩ := e
      obtain ⟨u, hu, hrest⟩ := exec_cons_eq_some.mp h
      obtain ⟨hr, hval⟩ := Option.ite_none_right_eq_some.mp hu
      rw [Option.some.injEq, apply_fst] at hval
      subst hval
      obtain ⟨hw, hall⟩ := ih hrest
      constructor
      · rw [hw, net, net, List.map_cons, List.sum_cons, Int.add_assoc]
      · intro before j op' r' after hlog
        cases before with
        | nil =>
            cases hlog
            rw [net, List.map_nil, List.sum_nil, Int.add_zero]
            exact hr.symm
        | cons e before =>
            obtain ⟨rfl, htail⟩ := List.cons.inj hlog
            rw [hall before j op' r' after htail, net, net, List.map_cons, List.sum_cons,
              Int.add_assoc]

/-- The same from the start, where the counter is 0. -/
theorem atomic_exec_init {log : List (ι × Op × Option Int)} {w : Int}
    (h : (counter.atomic apply).exec log counter.init = some w) :
    w = signed 32 (net log) ∧ ∀ before i op r after, log = before ++ (i, op, r) :: after →
      r = (apply op (signed 32 (net before))).2 := by
  obtain ⟨hw, hall⟩ := atomic_exec (x := 0) h
  refine ⟨by rw [hw, Int.zero_add], fun before i op r after hlog => ?_⟩
  rw [hall before i op r after hlog, Int.zero_add]

/-! ## The counter among its callers -/

variable [Fintype ι] [DecidableEq ι] {κ : Type}

/-- **The counter is linearizable**: whoever calls what, and whatever the scheduler does, in
the order in which the calls let go of the lock a `get` returns the increments less the
decrements before it, as an `int`, which is also what the counter holds whenever the lock is
free; and every caller has been given its part of this, for the calls that it is meant to
make. -/
theorem counter_linearizable (own : ι → κ) (programs : ι → List Op) {ls : List ι}
    {c : Conf ι (Guarded κ Int) Caller} (h : (counter.system own programs).Reaches ls c) :
    (∀ before i op r after,
      counter.log own programs ls = before ++ (i, op, r) :: after →
        r = if op = .get then some (signed 32 (net before)) else none)
    ∧ (c.shared.lock = none →
        c.shared.object = signed 32 (net (counter.log own programs ls)))
    ∧ ∀ i, (c.threads i).results
          = (counter.log own programs ls).filterMap (fun e => if e.1 = i then some e.2 else none)
        ∧ (c.threads i).results.map Prod.fst ++ (c.threads i).current ++ (c.threads i).todo
          = programs i := by
  obtain ⟨⟨a, ha, hfree⟩, hclients⟩ := Object.linearizable counter_implements h
  obtain ⟨hval, hall⟩ := atomic_exec_init ha
  refine ⟨fun before i op r after hlog => ?_, fun hnone => ?_, hclients⟩
  · rw [hall before i op r after hlog]
    cases op <;> rfl
  · rw [hfree hnone, hval]

/-- One caller increments and decrements; when it is through, nothing is left of that. -/
theorem counter_linearizable_one :
    ∃ c, (counter.system id fun _ : Fin 1 => [.increment, .decrement]).Reaches
        (List.replicate 8 0) c
      ∧ c.shared.object = signed 32
        (net (counter.log id (fun _ : Fin 1 => [.increment, .decrement]) (List.replicate 8 0))) := by
  obtain ⟨c, hrun, hfree⟩ := Option.any_eq_true _ _ |>.mp
    (show (((counter.system id fun _ : Fin 1 => [Op.increment, .decrement]).exec
        (List.replicate 8 0) (counter.initial fun _ => [.increment, .decrement])).any
      fun c => c.shared.lock.isNone) = true by decide +kernel)
  have hvalue := (counter_linearizable id (fun _ : Fin 1 => [.increment, .decrement]) hrun).2.1
  exact ⟨c, hrun, hvalue (Option.isNone_iff_eq_none.mp hfree)⟩

/-! ## The whole program -/

omit [Fintype ι] [DecidableEq ι] in
/-- What a client that has finished has called is all that it was meant to call. -/
theorem calls_of_finished {t : Caller} (h : t.finished = true) :
    t.current = [] ∧ t.todo = [] := by
  obtain ⟨pc, todo, results⟩ := t
  cases pc with
  | idle =>
      cases todo with
      | nil => exact ⟨rfl, rfl⟩
      | cons op todo => cases h
  | _ => cases h

/-- The change that some calls make is the sum of what those of each caller do. -/
theorem net_eq_sum (log : List (ι × Op × Option Int)) :
    net log = ∑ i, ((log.filterMap fun e => if e.1 = i then some e.2 else none).map
      fun e => e.1.change).sum := by
  induction log with
  | nil => simp [net]
  | cons e log ih =>
      have hone : ∀ i, (((e :: log).filterMap fun e => if e.1 = i then some e.2 else none).map
          fun e => e.1.change).sum = (if e.1 = i then e.2.1.change else 0)
            + ((log.filterMap fun e => if e.1 = i then some e.2 else none).map
              fun e => e.1.change).sum := by
        intro i
        by_cases hi : e.1 = i <;> simp [hi]
      rw [net, List.map_cons, List.sum_cons, ← net, ih, Finset.sum_congr rfl fun i _ => hone i,
        Finset.sum_add_distrib, Finset.sum_ite_eq, if_pos (Finset.mem_univ _)]

/-- **The callers end**, and then the counter holds what all their calls together make. -/
theorem callers_end (own : ι → κ) (programs : ι → List Op) :
    (counter.system own programs).EndsWithin
      (∑ i, ((programs i).map fun op => (entry op).cost + 2).sum) fun ls c =>
        ls.length = ∑ i, ((programs i).map fun op => (entry op).cost + 2).sum
          ∧ (∀ i, (c.threads i).finished = true)
          ∧ c.shared = ⟨none, signed 32 (∑ i, ((programs i).map Op.change).sum)⟩ := by
  have hends := Object.ends counter_implements own programs
  refine ⟨hends.length_le, fun {ls c} hrun hstuck => ?_⟩
  obtain ⟨hlen, hall, a, ha, hshared⟩ := hends.ended hrun hstuck
  refine ⟨hlen, hall, ?_⟩
  rw [hshared, (atomic_exec_init ha).1, net_eq_sum]
  congr 2
  refine Finset.sum_congr rfl fun i _ => ?_
  obtain ⟨hcurrent, htodo⟩ := calls_of_finished (hall i)
  have hcalls := Object.calls hrun.reachable i
  rw [hcurrent, htodo, List.append_nil, List.append_nil, Object.results hrun i] at hcalls
  rw [← hcalls, List.map_map]
  rfl

theorem main_proper (loop : Nat) :
    (main loop).Proper fun i => counter.client (some i) where
  code _ _ := rfl
  ends _ s t ht := by
    obtain ⟨hcurrent, htodo⟩ := calls_of_finished ht
    obtain ⟨pc, todo, results⟩ := t
    cases pc with
    | idle =>
        cases htodo
        rfl
    | _ => cases hcurrent

/-- **`simple-counter.c` counts its threads**: for any number of them and whatever the
scheduler does, `main` comes to its end, always after the same number of steps, has printed
how many threads there were, which is an `int`, and leaves the lock free. -/
theorem simple_counter_ends (loop : Nat) :
    (main loop).system.EndsWithin (8 * loop + 6) fun ls s =>
      ls.length = 8 * loop + 6
        ∧ s.parent = .tail (.finished (some (signed 32 loop)))
        ∧ s.conf.shared = ⟨none, signed 32 loop⟩
        ∧ ((loop : Int) ≤ intMax → s.parent = .tail (.finished (some loop))
          ∧ s.conf.shared = ⟨none, loop⟩)
        ∧ ∀ i, (s.conf.threads i).finished = true := by
  have hends := Family.endsWithin (K := 4)
    (Q := fun c ls x => ls.length = 4 ∧ x = (c.shared, .finished (some c.shared.object)))
    (main_proper loop) (callers_end some fun _ => [.increment]) (fun hP => hP.2.1)
    (by
      rintro ls ⟨shared, threads⟩ ⟨-, -, hshared⟩
      cases hshared
      exact endsWithin_alone rfl rfl)
  have hsteps : ∑ _i : Fin loop, ([Op.increment].map fun op => (entry op).cost + 2).sum
      = loop * 4 := by
    refine (Finset.sum_const_nat (m := 4) fun _ _ => rfl).trans ?_
    rw [Finset.card_fin]
  have hvalue : ∑ _i : Fin loop, ([Op.increment].map Op.change).sum = (loop : Int) := by
    rw [Finset.sum_const, Finset.card_fin, nsmul_eq_mul]
    exact Int.mul_one _
  constructor
  · intro ls s hrun
    have := hends.length_le hrun
    omega
  · intro ls s hrun hstuck
    obtain ⟨ls₀, c₀, ls₁, m, hp, hthreads, ⟨hlen₀, hall, hshared⟩, ⟨hlen₁, htail⟩, hlen⟩ :=
      hends.ended hrun hstuck
    obtain ⟨hs, rfl⟩ := Prod.mk.inj htail
    rw [hvalue] at hshared
    have hparent : s.parent = .tail (.finished (some (signed 32 loop))) := by rw [hp, hshared]
    have hconf := hs.trans hshared
    refine ⟨by omega, hparent, hconf, fun hle => ?_, fun i => ?_⟩
    · have hsame := (signed_eq_self_iff (Int.natCast_nonneg _)).mpr hle
      rw [hparent, hconf, hsame]
      exact ⟨rfl, rfl⟩
    · rw [hthreads]
      exact hall i

end CAdvanced.SimpleCounter
