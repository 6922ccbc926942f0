import CAdvanced.Interleave.System
import Mathlib.Algebra.BigOperators.Group.Finset.Basic
import Mathlib.Algebra.BigOperators.Group.Finset.Piecewise
import Mathlib.Algebra.Order.BigOperators.Group.Finset
import Mathlib.Data.Fintype.BigOperators

/-!
# Interleave — threads over a shared memory

A configuration is the shared memory and one local state for each thread of
an arbitrary finite index type. A thread's code is a partial function on
(memory, own local state); the scheduler picks who moves.

The reasoning layer is arithmetic: a WEIGHT on local states, summed over the
threads (`total`), turns "exactly one of the semaphore and the threads holds
the token" into an equation, and such an equation is kept by every schedule
as soon as the code of ONE thread keeps it (`Conf.step_total`). Facts about
one thread's registers are kept by the other threads' steps under an
interference check (`Conf.step_forall`).
-/

namespace Interleave

/-- Where a function call stands after one of its steps: at a program point
of the function, or returned to its caller. -/
inductive Ctl (π : Type*) where
  | goto (p : π)
  | ret
  deriving DecidableEq, Repr

/-- Continues a call: `k p` while it stands at `p`, `r` once it returned. -/
def Ctl.resume {π κ : Type*} (k : π → κ) (r : κ) : Ctl π → κ
  | .goto p => k p
  | .ret => r

@[simp] theorem Ctl.resume_goto {π κ : Type*} (k : π → κ) (r : κ) (p : π) :
    (Ctl.goto p).resume k r = k p := rfl

@[simp] theorem Ctl.resume_ret {π κ : Type*} (k : π → κ) (r : κ) :
    (Ctl.ret : Ctl π).resume k r = r := rfl

/-- What holds of the point that a call has gone to, or of the caller's own next point,
holds of where the caller goes on. -/
theorem Ctl.resume_of {π κ : Type*} {P : κ → Prop} {k : π → κ} {r : κ} {q : Ctl π}
    (h : q.resume (fun p => P (k p)) (P r)) : P (q.resume k r) := by
  cases q with
  | goto p => exact h
  | ret => exact h

/-- Renames the program points of a call. -/
def Ctl.map {π ρ : Type*} (e : π → ρ) : Ctl π → Ctl ρ
  | .goto p => .goto (e p)
  | .ret => .ret

@[simp] theorem Ctl.map_goto {π ρ : Type*} (e : π → ρ) (p : π) :
    (Ctl.goto p).map e = .goto (e p) := rfl

@[simp] theorem Ctl.map_ret {π ρ : Type*} (e : π → ρ) :
    (Ctl.ret : Ctl π).map e = .ret := rfl

/-- The memory the threads share, and every thread's own state. -/
structure Conf (ι σ τ : Type*) where
  shared : σ
  threads : ι → τ

variable {ι σ τ : Type*}

/-! ## Weights summed over the threads -/

/-- The sum of a weight over all threads. -/
def total [Fintype ι] (w : τ → Nat) (ts : ι → τ) : Nat :=
  ∑ i, w (ts i)

section Total
variable [Fintype ι]

/-- **One thread moves**: its old weight is traded for its new one. -/
theorem total_update [DecidableEq ι] (w : τ → Nat) (ts : ι → τ) (i : ι) (t : τ) :
    total w (Function.update ts i t) + w (ts i) = total w ts + w t := by
  have hrest : ∑ j ∈ Finset.univ.erase i, w (Function.update ts i t j)
      = ∑ j ∈ Finset.univ.erase i, w (ts j) :=
    Finset.sum_congr rfl fun j hj => by
      rw [Function.update_of_ne (Finset.ne_of_mem_erase hj)]
  unfold total
  rw [← Finset.add_sum_erase _ _ (Finset.mem_univ i), hrest,
    ← Finset.add_sum_erase _ (fun j => w (ts j)) (Finset.mem_univ i),
    Function.update_self]
  omega

theorem le_total (w : τ → Nat) (ts : ι → τ) (i : ι) : w (ts i) ≤ total w ts :=
  Finset.single_le_sum (f := fun j => w (ts j)) (fun _ _ => Nat.zero_le _)
    (Finset.mem_univ i)

/-- Two different threads weigh together at most the total. -/
theorem add_le_total (w : τ → Nat) (ts : ι → τ) {i j : ι} (hij : i ≠ j) :
    w (ts i) + w (ts j) ≤ total w ts := by
  classical
  have hj : j ∈ Finset.univ.erase i := Finset.mem_erase.mpr ⟨hij.symm, Finset.mem_univ j⟩
  have hle := Finset.single_le_sum (f := fun k => w (ts k)) (fun _ _ => Nat.zero_le _) hj
  unfold total
  rw [← Finset.add_sum_erase _ _ (Finset.mem_univ i)]
  omega

/-- A positive total has a thread behind it. -/
theorem exists_of_total_pos {w : τ → Nat} {ts : ι → τ} (h : 0 < total w ts) :
    ∃ i, 0 < w (ts i) := by
  obtain ⟨i, -, hi⟩ := Finset.exists_ne_zero_of_sum_ne_zero (Nat.pos_iff_ne_zero.mp h)
  exact ⟨i, Nat.pos_of_ne_zero hi⟩

theorem total_eq_zero {w : τ → Nat} {ts : ι → τ} (h : ∀ i, w (ts i) = 0) :
    total w ts = 0 :=
  Finset.sum_eq_zero fun i _ => h i

/-- The total of a weight that one thread alone has. -/
theorem total_eq_single {w : τ → Nat} {ts : ι → τ} {i : ι} (h : ∀ j, j ≠ i → w (ts j) = 0) :
    total w ts = w (ts i) :=
  Finset.sum_eq_single i (fun j _ => h j) fun hi => absurd (Finset.mem_univ i) hi

theorem total_congr_of_threads {w : τ → Nat} {ts ts' : ι → τ} (h : ∀ i, w (ts' i) = w (ts i)) :
    total w ts' = total w ts :=
  Finset.sum_congr rfl fun i _ => h i

theorem total_congr {w w' : τ → Nat} {ts : ι → τ}
    (h : ∀ i, w (ts i) = w' (ts i)) : total w ts = total w' ts :=
  Finset.sum_congr rfl fun i _ => h i

theorem total_le_total {w w' : τ → Nat} {ts : ι → τ} (h : ∀ i, w (ts i) ≤ w' (ts i)) :
    total w ts ≤ total w' ts :=
  Finset.sum_le_sum fun i _ => h i

/-- What is counted in a list of things that threads did is the sum of what each did. -/
theorem countP_eq_sum [DecidableEq ι] {β : Type*} (es : List (ι × β)) (p : β → Bool) :
    es.countP (fun e => p e.2) = ∑ i, es.countP fun e => decide (e.1 = i) && p e.2 := by
  induction es with
  | nil => exact Finset.sum_const_zero.symm
  | cons e es ih =>
      have hone : ∑ i, (decide (e.1 = i) && p e.2).toNat = (p e.2).toNat := by
        rw [Finset.sum_eq_single e.1 ?_ fun h => absurd (Finset.mem_univ _) h]
        · rw [decide_eq_true rfl, Bool.true_and]
        · intro i _ hi
          rw [decide_eq_false hi.symm, Bool.false_and, Bool.toNat_false]
      have hcons : ∀ q : ι × β → Bool, (e :: es).countP q = es.countP q + (q e).toNat := by
        intro q
        rw [List.countP_cons]
        cases q e <;> rfl
      rw [hcons, Finset.sum_congr rfl fun i _ => hcons _, Finset.sum_add_distrib, ih, hone]

end Total

/-! ## Steps -/

/-- Thread `i` takes one step of the code `f`. -/
def Conf.step [DecidableEq ι] (f : σ → τ → Option (σ × τ)) (i : ι)
    (c : Conf ι σ τ) : Option (Conf ι σ τ) :=
  (f c.shared (c.threads i)).map fun r => ⟨r.1, Function.update c.threads i r.2⟩

/-- The system of threads that all run the code `f`, from `init`. -/
def threads [DecidableEq ι] (f : σ → τ → Option (σ × τ)) (init : Conf ι σ τ) :
    System (Conf ι σ τ) ι :=
  ⟨init, fun i c => c.step f i⟩

/-- The steps whose mover satisfies `p` before it moves. -/
def movedFrom (p : τ → Bool) (i : ι) (c : Conf ι σ τ) : Bool := p (c.threads i)

/-- The steps of thread `j` that it takes in a local state satisfying `p`. -/
def movedBy [DecidableEq ι] (j : ι) (p : τ → Bool) (i : ι) (c : Conf ι σ τ) : Bool :=
  i = j && p (c.threads i)

theorem movedBy_eq_true [DecidableEq ι] {j i : ι} {p : τ → Bool} {c : Conf ι σ τ} :
    movedBy j p i c = true ↔ i = j ∧ p (c.threads j) = true := by
  simp only [movedBy, Bool.and_eq_true, decide_eq_true_eq]
  exact and_congr_right fun h => h ▸ Iff.rfl

@[simp] theorem movedBy_self [DecidableEq ι] (j : ι) (p : τ → Bool) (c : Conf ι σ τ) :
    movedBy j p j c = p (c.threads j) := by
  rw [movedBy, decide_eq_true rfl, Bool.true_and]

theorem movedBy_of_ne [DecidableEq ι] {j i : ι} {p : τ → Bool} {c : Conf ι σ τ}
    (h : i ≠ j) : movedBy j p i c = false := by
  rw [movedBy, decide_eq_false h, Bool.false_and]

section Step
variable [DecidableEq ι] {f : σ → τ → Option (σ × τ)} {i : ι} {c c' : Conf ι σ τ}

theorem Conf.step_eq_some : c.step f i = some c'
    ↔ ∃ s t, f c.shared (c.threads i) = some (s, t)
      ∧ c' = ⟨s, Function.update c.threads i t⟩ := by
  simp only [Conf.step, Option.map_eq_some_iff, Prod.exists]
  exact ⟨fun ⟨s, t, h, e⟩ => ⟨s, t, h, e.symm⟩, fun ⟨s, t, h, e⟩ => ⟨s, t, h, e.symm⟩⟩

/-- A thread whose code can move gives the configuration a step. -/
theorem Conf.step_isSome (h : (f c.shared (c.threads i)).isSome) :
    ∃ c', c.step f i = some c' := by
  obtain ⟨r, hr⟩ := Option.isSome_iff_exists.mp h
  exact ⟨_, Conf.step_eq_some.mpr ⟨r.1, r.2, hr, rfl⟩⟩

/-- The mover went where its code led it. -/
theorem Conf.step_mover (h : c.step f i = some c') :
    f c.shared (c.threads i) = some (c'.shared, c'.threads i) := by
  obtain ⟨s, t, hf, rfl⟩ := Conf.step_eq_some.mp h
  simpa using hf

/-- The threads that did not move are where they were. -/
theorem Conf.step_threads_ne (h : c.step f i = some c') {j : ι} (hj : j ≠ i) :
    c'.threads j = c.threads j := by
  obtain ⟨s, t, -, rfl⟩ := Conf.step_eq_some.mp h
  exact Function.update_of_ne hj _ _

/-- A step trades the mover's old weight for its new one. -/
theorem Conf.total_step [Fintype ι] (w : τ → Nat) (h : c.step f i = some c') :
    total w c'.threads + w (c.threads i) = total w c.threads + w (c'.threads i) := by
  obtain ⟨s, t, -, rfl⟩ := Conf.step_eq_some.mp h
  simpa using total_update w c.threads i t

/-- **Conservation**: a law "memory account + own weight" that the step of
one thread keeps is kept by the configuration. -/
theorem Conf.step_total [Fintype ι] {g : σ → Nat} {w : τ → Nat}
    (h : c.step f i = some c')
    (hlaw : g c'.shared + w (c'.threads i) = g c.shared + w (c.threads i)) :
    g c'.shared + total w c'.threads = g c.shared + total w c.threads := by
  have := Conf.total_step w h
  omega

/-- **Interference**: a local assertion holds of every thread after a step
if the mover establishes it for itself and the step does not break it for
any other thread. -/
theorem Conf.step_forall {A : σ → τ → Prop} (h : c.step f i = some c')
    (hmover : A c'.shared (c'.threads i))
    (hothers : ∀ j, j ≠ i → A c'.shared (c.threads j)) :
    ∀ j, A c'.shared (c'.threads j) := by
  intro j
  by_cases hj : j = i
  · subst hj
    exact hmover
  · rw [Conf.step_threads_ne h hj]
    exact hothers j hj

/-- **Ownership**: what is owned by one thread at most stays so if the mover
only keeps its own, or takes what nobody owns, and the step does not change what
the others own. -/
theorem Conf.step_disjoint {β : Type*} (own : σ → τ → Option β) (h : c.step f i = some c')
    (hinv : ∀ {j k b}, own c.shared (c.threads j) = some b →
      own c.shared (c.threads k) = some b → j = k)
    (hothers : ∀ j, j ≠ i → own c'.shared (c.threads j) = own c.shared (c.threads j))
    (hmover : ∀ {b}, own c'.shared (c'.threads i) = some b →
      own c.shared (c.threads i) = some b ∨ ∀ j, own c.shared (c.threads j) ≠ some b)
    {j k : ι} {b : β} (hj : own c'.shared (c'.threads j) = some b)
    (hk : own c'.shared (c'.threads k) = some b) : j = k := by
  -- another thread's thing does not come into the hands of the mover
  have hnew : ∀ {j}, j ≠ i → own c'.shared (c'.threads j) = some b →
      own c'.shared (c'.threads i) ≠ some b := by
    intro j hji hj hi
    rw [Conf.step_threads_ne h hji, hothers j hji] at hj
    rcases hmover hi with hown | hnone
    · exact hji (hinv hj hown)
    · exact hnone j hj
  by_cases hji : j = i
  · by_cases hki : k = i
    · rw [hji, hki]
    · exact absurd (hji ▸ hj) (hnew hki hk)
  · by_cases hki : k = i
    · exact absurd (hki ▸ hk) (hnew hji hj)
    · rw [Conf.step_threads_ne h hji, hothers j hji] at hj
      rw [Conf.step_threads_ne h hki, hothers k hki] at hk
      exact hinv hj hk

/-- **The ledger of a memory account**: what the code of one thread credits
and debits per step adds up along the run. -/
theorem threads_ledger {init : Conf ι σ τ} {I : Conf ι σ τ → Prop}
    (hI : (Interleave.threads f init).Inductive I) {g : σ → Int} {p q : τ → Bool}
    (hlaw : ∀ {c : Conf ι σ τ} {i s t}, I c → f c.shared (c.threads i) = some (s, t) →
      g s + (q (c.threads i)).toNat = g c.shared + (p (c.threads i)).toNat)
    {ls : List ι} {c : Conf ι σ τ} (h : (Interleave.threads f init).Reaches ls c) :
    g c.shared + (Interleave.threads f init).count (movedFrom q) ls
      = g init.shared + (Interleave.threads f init).count (movedFrom p) ls := by
  refine System.exec_ledger hI (g := fun c => g c.shared) ?_ hI.init h
  intro i c c' hc hstep
  obtain ⟨s, t, hf, rfl⟩ := Conf.step_eq_some.mp hstep
  exact hlaw hc hf

/-- **What the threads have still to do** of one kind of step: each of these steps takes one
off, and no other step changes it, so together with the steps that have been taken it is what
there was to do at the start. -/
theorem threads_drain [Fintype ι] {init : Conf ι σ τ} {I : Conf ι σ τ → Prop}
    (hI : (Interleave.threads f init).Inductive I) {w : τ → Nat} {q : τ → Bool}
    (hlaw : ∀ {c : Conf ι σ τ} {i s t}, I c → f c.shared (c.threads i) = some (s, t) →
      w t + (q (c.threads i)).toNat = w (c.threads i))
    {ls : List ι} {c : Conf ι σ τ} (h : (Interleave.threads f init).Reaches ls c) :
    total w c.threads + (Interleave.threads f init).count (movedFrom q) ls
      = total w init.threads := by
  have hledger := System.exec_ledger hI (p := fun _ _ => false) (q := movedFrom q)
    (g := fun c => (total w c.threads : Int)) (by
      intro i c c' hc hstep
      have hone := hlaw hc (Conf.step_mover hstep)
      have htotal := Conf.total_step w hstep
      simp only [movedFrom, Bool.toNat_false]
      omega) hI.init h
  rw [System.tally_false] at hledger
  exact_mod_cast hledger

/-! ## One thread alone -/

/-- The code `f` run alone for `n` steps, none of them from a local state
satisfying `p`. -/
def quietSolo (f : σ → τ → Option (σ × τ)) (p : τ → Bool) : Nat → σ × τ → Option (σ × τ)
  | 0, x => some x
  | n + 1, x => if p x.2 then none else (f x.1 x.2).bind (quietSolo f p n)

/-- The scheduler may let one thread run alone; what it does then is what its
code does, and the others stand still. -/
theorem exec_replicate_of_quietSolo (init : Conf ι σ τ) {p : τ → Bool} {n : Nat} {s : σ}
    {t : τ} (h : quietSolo f p n (c.shared, c.threads i) = some (s, t)) :
    (Interleave.threads f init).exec (List.replicate n i) c
        = some ⟨s, Function.update c.threads i t⟩
      ∧ (Interleave.threads f init).tally (movedFrom p) (List.replicate n i) c = 0 := by
  induction n generalizing c with
  | zero =>
      cases h
      rw [Function.update_eq_self]
      exact ⟨rfl, rfl⟩
  | succ n ih =>
      by_cases hp : p (c.threads i) = true
      · rw [quietSolo, if_pos hp] at h
        cases h
      · rw [quietSolo, if_neg hp, Option.bind_eq_some_iff] at h
        obtain ⟨⟨s₁, t₁⟩, hf, hrest⟩ := h
        have hstep : (Interleave.threads f init).next i c
            = some ⟨s₁, Function.update c.threads i t₁⟩ :=
          Conf.step_eq_some.mpr ⟨s₁, t₁, hf, rfl⟩
        have hrest' : quietSolo f p n (s₁, Function.update c.threads i t₁ i) = some (s, t) := by
          rw [Function.update_self]
          exact hrest
        obtain ⟨hexec, htally⟩ := ih (c := ⟨s₁, Function.update c.threads i t₁⟩) hrest'
        rw [Function.update_idem] at hexec
        refine ⟨System.exec_cons_eq_some.mpr ⟨_, hstep, hexec⟩, ?_⟩
        rw [List.replicate_succ, System.tally_cons hstep, htally, movedFrom,
          Bool.eq_false_of_not_eq_true hp]
        rfl

/-- The code `f` run alone, where each step has an action of the environment. -/
def soloRun {α : Type*} (f : α → σ → τ → Option (σ × τ)) : List α → σ × τ → Option (σ × τ)
  | [], x => some x
  | a :: as, x => (f a x.1 x.2).bind (soloRun f as)

omit [DecidableEq ι] in
theorem soloRun_cons {α : Type*} {f : α → σ → τ → Option (σ × τ)} {a : α} {as : List α}
    {x y : σ × τ} (h : f a x.1 x.2 = some y) : soloRun f (a :: as) x = soloRun f as y := by
  rw [soloRun, h, Option.bind_some]

/-- What one thread does alone is a run of the threads, in which the others stand still. -/
theorem exec_of_soloRun {α : Type*} {S : System (Conf ι σ τ) (ι × α)}
    {f : ι → α → σ → τ → Option (σ × τ)} (hS : ∀ a c, S.next (i, a) c = c.step (f i a) i)
    {as : List α} {s : σ} {t : τ} (h : soloRun (f i) as (c.shared, c.threads i) = some (s, t)) :
    S.exec (as.map fun a => (i, a)) c = some ⟨s, Function.update c.threads i t⟩ := by
  induction as generalizing c with
  | nil =>
      cases h
      rw [Function.update_eq_self]
      rfl
  | cons a as ih =>
      rw [soloRun, Option.bind_eq_some_iff] at h
      obtain ⟨⟨s₁, t₁⟩, hf, hrest⟩ := h
      have hstep : S.next (i, a) c = some ⟨s₁, Function.update c.threads i t₁⟩ := by
        rw [hS]
        exact Conf.step_eq_some.mpr ⟨s₁, t₁, hf, rfl⟩
      have hrest' : soloRun (f i) as (s₁, Function.update c.threads i t₁ i) = some (s, t) := by
        rw [Function.update_self]
        exact hrest
      have hexec := ih (c := ⟨s₁, Function.update c.threads i t₁⟩) hrest'
      rw [Function.update_idem] at hexec
      exact System.exec_cons_eq_some.mpr ⟨_, hstep, hexec⟩

end Step
end Interleave
