import CAdvanced.Interleave.Threads
import Mathlib.Data.Fintype.Basic
import Mathlib.Data.List.Nodup

/-!
# Interleave — serial schedules

Threads that each have `n` steps to take, where nobody can take its first step while somebody
else is on its way (`Gated`). Then the threads run one after the other, whatever the scheduler
does: the schedules are the prefixes of `serial n order`, for the orders of the threads.

* `Gated.serialAt` — what every run looks like so far;
* `Gated.reaches_iff` — the schedules that are runs;
* `Gated.canMove_iff` — a run can go on until everybody has taken all its steps.
-/

namespace Interleave

/-- One thread after the other takes `n` steps. -/
def serial {ι : Type*} (n : Nat) (order : List ι) : List ι := order.flatMap (List.replicate n)

section Schedules
variable {ι : Type*} {n : Nat}

theorem serial_append (order order' : List ι) :
    serial n (order ++ order') = serial n order ++ serial n order' :=
  List.flatMap_append

theorem serial_concat (order : List ι) (i : ι) :
    serial n (order ++ [i]) = serial n order ++ List.replicate n i := by
  rw [serial_append]
  simp [serial]

/-- **A serial schedule so far**: `phase` says how many steps each thread has taken; some are
through, and at most one is on its way. -/
inductive SerialAt [DecidableEq ι] (n : Nat) (phase : ι → Nat) : List ι → Prop
  | between (order : List ι) (hnodup : order.Nodup)
      (hphase : ∀ j, phase j = if j ∈ order then n else 0) : SerialAt n phase (serial n order)
  | within (order : List ι) (i : ι) (k : Nat) (hk : 0 < k ∧ k < n) (hnodup : order.Nodup)
      (hi : i ∉ order)
      (hphase : ∀ j, phase j = if j ∈ order then n else if j = i then k else 0) :
      SerialAt n phase (serial n order ++ List.replicate k i)

theorem nodup_concat {order : List ι} {i : ι} (hnodup : order.Nodup) (hi : i ∉ order) :
    (order ++ [i]).Nodup := by
  rw [← List.concat_eq_append]
  exact hnodup.concat hi

variable [DecidableEq ι] {phase phase' : ι → Nat} {ls : List ι} {i : ι}

/-- A thread on its way is through with its last step. -/
theorem SerialAt.of_le {order : List ι} {k : Nat} (hk : 0 < k ∧ k ≤ n)
    (hnodup : order.Nodup) (hi : i ∉ order)
    (hphase : ∀ j, phase j = if j ∈ order then n else if j = i then k else 0) :
    SerialAt n phase (serial n order ++ List.replicate k i) := by
  rcases hk.2.lt_or_eq with hlt | rfl
  · exact .within order i k ⟨hk.1, hlt⟩ hnodup hi hphase
  · rw [← serial_concat]
    refine .between (order ++ [i]) (nodup_concat hnodup hi) fun j => ?_
    rw [hphase]
    by_cases hj : j ∈ order
    · simp [hj]
    · simp [hj]

/-- One step: of the thread that is on its way, or the first one of another thread. -/
theorem SerialAt.step (h : SerialAt n phase ls) (hless : phase i < n)
    (hgate : phase i = 0 → ∀ j, phase j = 0 ∨ phase j = n)
    (hphase' : ∀ j, phase' j = if j = i then phase i + 1 else phase j) :
    SerialAt n phase' (ls ++ [i]) := by
  cases h with
  | between order hnodup hphase =>
      have hi : i ∉ order := by
        intro hi
        have := hphase i
        rw [if_pos hi] at this
        omega
      have hzero : phase i = 0 := by rw [hphase, if_neg hi]
      refine SerialAt.of_le (k := 1) ⟨Nat.one_pos, by omega⟩ hnodup hi fun j => ?_
      rw [hphase', hzero, hphase]
      by_cases hj : j = i
      · rw [hj, if_pos rfl, if_neg hi, if_pos rfl]
      · rw [if_neg hj, if_neg hj]
  | within order m k hk hnodup hm hphase =>
      have hat : phase m = k := by rw [hphase, if_neg hm, if_pos rfl]
      have him : i = m := by
        by_contra hne
        have hi := hphase i
        rw [if_neg hne] at hi
        by_cases hmem : i ∈ order
        · rw [if_pos hmem] at hi
          omega
        · -- nobody begins while `m` is on its way
          rw [if_neg hmem] at hi
          rcases hgate hi m with hzero | hn
          · omega
          · omega
      subst him
      rw [List.append_assoc, ← List.replicate_succ']
      refine SerialAt.of_le ⟨by omega, by omega⟩ hnodup hm fun j => ?_
      rw [hphase', hat, hphase]
      by_cases hj : j = i
      · rw [hj, if_pos rfl, if_neg hm, if_pos rfl]
      · rw [if_neg hj, if_neg hj, if_neg hj]

/-- What has been scheduled so far can be completed to a serial schedule of all threads. -/
theorem SerialAt.completes [Fintype ι] (h : SerialAt n phase ls) :
    ∃ order : List ι, order.Nodup ∧ (∀ i, i ∈ order) ∧ ls <+: serial n order := by
  -- the threads that are not through follow in any order
  have hrest : ∀ first : List ι, first.Nodup → ∃ order : List ι,
      order.Nodup ∧ (∀ i, i ∈ order) ∧ first <+: order := by
    intro first hnodup
    refine ⟨first ++ Finset.univ.toList.filter (· ∉ first), ?_, fun i => ?_,
      List.prefix_append _ _⟩
    · refine List.nodup_append.mpr ⟨hnodup, (Finset.nodup_toList _).filter _, ?_⟩
      intro a ha b hb hab
      rw [hab] at ha
      simp [ha] at hb
    · by_cases hi : i ∈ first
      · simp [hi]
      · simp [hi]
  have hserial : ∀ {first order : List ι}, first <+: order → serial n first <+: serial n order := by
    rintro first order ⟨rest, rfl⟩
    rw [serial_append]
    exact List.prefix_append _ _
  cases h with
  | between order hnodup hphase =>
      obtain ⟨all, hall, hmem, hpre⟩ := hrest order hnodup
      exact ⟨all, hall, hmem, hserial hpre⟩
  | within order i k hk hnodup hi hphase =>
      obtain ⟨all, hall, hmem, hpre⟩ := hrest (order ++ [i]) (nodup_concat hnodup hi)
      refine ⟨all, hall, hmem, List.IsPrefix.trans ?_ (hserial hpre)⟩
      rw [serial_concat, List.prefix_append_right_inj]
      exact ⟨List.replicate (n - k) i, by rw [List.replicate_append_replicate]; congr; omega⟩

end Schedules

/-! ## Threads with a gate -/

section Threads
variable {ι σ τ : Type*} [DecidableEq ι] {n : Nat} {phase : τ → Nat}
  {S : System (Conf ι σ τ) ι} {I : Conf ι σ τ → Prop}

/-- The threads of `S` have `n` steps each, and the first one is behind a gate: nobody else
is on its way then. Whoever nobody is in the way of can go on. -/
structure Gated (S : System (Conf ι σ τ) ι) (n : Nat) (phase : τ → Nat)
    (I : Conf ι σ τ → Prop) : Prop where
  inv : S.Inductive I
  start : ∀ i, phase (S.init.threads i) = 0
  step : ∀ {i c c'}, I c → S.next i c = some c' → phase (c.threads i) < n
    ∧ ∀ j, phase (c'.threads j) = if j = i then phase (c.threads i) + 1 else phase (c.threads j)
  gate : ∀ {i c c'}, I c → S.next i c = some c' → phase (c.threads i) = 0 →
    ∀ j, phase (c.threads j) = 0 ∨ phase (c.threads j) = n
  moves : ∀ {i c}, I c → (∀ j, j ≠ i → phase (c.threads j) = 0 ∨ phase (c.threads j) = n) →
    phase (c.threads i) < n → ∃ c', S.next i c = some c'

namespace Gated
open Interleave.System
variable {ls : List ι} {c c' : Conf ι σ τ}

theorem exec_serialAt (hG : Gated S n phase I) {before : List ι} (hc : I c)
    (hat : SerialAt n (fun i => phase (c.threads i)) before) (h : S.exec ls c = some c') :
    SerialAt n (fun i => phase (c'.threads i)) (before ++ ls) := by
  induction ls generalizing before c with
  | nil =>
      cases h
      rwa [List.append_nil]
  | cons i ls ih =>
      obtain ⟨u, hu, hrest⟩ := exec_cons_eq_some.mp h
      obtain ⟨hless, hphase⟩ := hG.step hc hu
      have := ih (hG.inv.step hc hu) (hat.step hless (hG.gate hc hu) hphase) hrest
      rwa [List.append_assoc, List.singleton_append] at this

/-- **Every run is serial so far.** -/
theorem serialAt (hG : Gated S n phase I) (h : S.Reaches ls c) :
    SerialAt n (fun i => phase (c.threads i)) ls :=
  hG.exec_serialAt hG.inv.init (.between [] List.nodup_nil (by simpa using hG.start)) h

/-- A thread that nobody is in the way of can take all its steps. -/
theorem exec_replicate (hG : Gated S n phase I) {i : ι} (hc : I c)
    (hothers : ∀ j, j ≠ i → phase (c.threads j) = 0 ∨ phase (c.threads j) = n) {k : Nat}
    (hk : phase (c.threads i) + k = n) :
    ∃ c', S.exec (List.replicate k i) c = some c' ∧ I c'
      ∧ ∀ j, phase (c'.threads j) = if j = i then n else phase (c.threads j) := by
  induction k generalizing c with
  | zero =>
      refine ⟨c, rfl, hc, fun j => ?_⟩
      split
      case isTrue hj => rw [hj]; exact hk
      case isFalse => rfl
  | succ k ih =>
      obtain ⟨u, hu⟩ := hG.moves hc hothers (by omega)
      obtain ⟨-, hphase⟩ := hG.step hc hu
      have hself := hphase i
      rw [if_pos rfl] at hself
      obtain ⟨c', hrun, hI, hend⟩ := ih (hG.inv.step hc hu)
        (fun j hj => by rw [hphase, if_neg hj]; exact hothers j hj) (by omega)
      refine ⟨c', exec_cons_eq_some.mpr ⟨u, hu, hrun⟩, hI, fun j => ?_⟩
      rw [hend, hphase]
      split <;> rfl

/-- The threads can run one after the other, in every order. -/
theorem exec_serial (hG : Gated S n phase I) {order : List ι} (hnodup : order.Nodup) (hc : I c)
    (hphase : ∀ j, phase (c.threads j) = 0 ∨ phase (c.threads j) = n)
    (hfresh : ∀ i ∈ order, phase (c.threads i) = 0) : ∃ c', S.exec (serial n order) c = some c' := by
  induction order generalizing c with
  | nil => exact ⟨c, rfl⟩
  | cons i order ih =>
      obtain ⟨u, hu, hI, hend⟩ := hG.exec_replicate hc (fun j _ => hphase j)
        (k := n) (i := i) (by rw [hfresh i (List.mem_cons_self ..), Nat.zero_add])
      obtain ⟨hi, hnodup⟩ := List.nodup_cons.mp hnodup
      obtain ⟨c', hc'⟩ := ih hnodup hI
        (fun j => by rw [hend]; split; exacts [.inr rfl, hphase j])
        (fun j hj => by
          rw [hend, if_neg (ne_of_mem_of_not_mem hj hi)]
          exact hfresh j (List.mem_cons_of_mem i hj))
      exact ⟨c', exec_append_eq_some.mpr ⟨u, hu, hc'⟩⟩

/-- **The schedules of a gated system** are the serial ones, and their prefixes. -/
theorem reaches_iff [Fintype ι] (hG : Gated S n phase I) :
    (∃ c, S.Reaches ls c)
      ↔ ∃ order : List ι, order.Nodup ∧ (∀ i, i ∈ order) ∧ ls <+: serial n order := by
  constructor
  · rintro ⟨c, h⟩
    exact (hG.serialAt h).completes
  · rintro ⟨order, hnodup, -, rest, hrest⟩
    obtain ⟨c, hc⟩ := hG.exec_serial hnodup hG.inv.init (fun j => .inl (hG.start j))
      fun i _ => hG.start i
    rw [← hrest] at hc
    obtain ⟨u, hu, -⟩ := exec_append_eq_some.mp hc
    exact ⟨u, hu⟩

/-- A run can go on until everybody is through. -/
theorem canMove_iff (hG : Gated S n phase I) (h : S.Reaches ls c) :
    S.CanMove c ↔ ∃ i, phase (c.threads i) < n := by
  have hc : I c := hG.inv.exec hG.inv.init h
  constructor
  · rintro ⟨i, c', hmove⟩
    exact ⟨i, (hG.step hc hmove).1⟩
  · rintro ⟨i, hi⟩
    have hat := hG.serialAt h
    generalize hp : (fun i => phase (c.threads i)) = p at hat
    have hphase : ∀ j, phase (c.threads j) = p j := fun j => congrFun hp j
    cases hat with
    | between order hnodup hall =>
        obtain ⟨c', hmove⟩ := hG.moves hc (i := i) (fun j _ => by
          rw [hphase, hall]
          split; exacts [.inr rfl, .inl rfl]) hi
        exact ⟨i, c', hmove⟩
    | within order m k hk hnodup hm hall =>
        -- the one that is on its way
        obtain ⟨c', hmove⟩ := hG.moves hc (i := m) (fun j hj => by
          rw [hphase, hall, if_neg hj]
          split; exacts [.inr rfl, .inl rfl]) (by
          rw [hphase, hall, if_neg hm, if_pos rfl]
          exact hk.2)
        exact ⟨m, c', hmove⟩

end Gated
end Threads
end Interleave
