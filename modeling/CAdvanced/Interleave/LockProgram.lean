import CAdvanced.Interleave.Sync
import CAdvanced.Interleave.Termination

/-!
# Interleave — programs of locks

Threads that do nothing but lock and unlock mutexes, each along its own code, and what
can be said of them from the code alone. `Disciplined` says what a thread holds at each
point of its code and that the locks and unlocks agree with it; then, in every run:

* `Disciplined.held` — the holder of a mutex is the thread whose point says so;
* `Disciplined.stuck` — where nobody can move, whoever is not done waits for a mutex
  whose holder waits as well.
-/

namespace Interleave

/-- What a statement does. -/
inductive LockOp (Λ : Type*) where
  | lock (l : Λ)
  | unlock (l : Λ)
  | skip
  deriving DecidableEq, Repr

section Program
variable {ι Λ π : Type*} [DecidableEq Λ]

/-- Thread `i` carries out a statement on the mutexes. -/
def LockOp.perform (i : ι) (s : Λ → Mutex ι) : LockOp Λ → Option (Λ → Mutex ι)
  | .lock l => ((s l).lock i).map fun m => Function.update s l m
  | .unlock l => some (Function.update s l (s l).unlock)
  | .skip => some s

/-- One step of thread `i`, whose code says the statement at a point and the point
behind it. -/
def lockStep (code : π → Option (LockOp Λ × π)) (i : ι) (s : Λ → Mutex ι) (p : π) :
    Option ((Λ → Mutex ι) × π) :=
  (code p).bind fun r => (r.1.perform i s).map fun s' => (s', r.2)

/-- The threads, each with its own code; all mutexes are free at first. -/
def lockThreads [DecidableEq ι] (code : ι → π → Option (LockOp Λ × π)) (start : ι → π) :
    System (Conf ι (Λ → Mutex ι) π) ι :=
  ⟨⟨fun _ => none, start⟩, fun i c => c.step (lockStep (code i) i) i⟩

/-- **Locking discipline**: `holds` says what a thread holds at a point, and the code agrees
with it at the points `good` that thread `i` can come to. -/
structure Disciplined (code : ι → π → Option (LockOp Λ × π)) (start : ι → π)
    (good : ι → π → Prop) (holds : π → Λ → Bool) : Prop where
  start : ∀ i, good i (start i) ∧ ∀ l, holds (start i) l = false
  keeps : ∀ {i p op p'}, good i p → code i p = some (op, p') → good i p'
  lock : ∀ {i p l p'}, good i p → code i p = some (.lock l, p') →
    holds p l = false ∧ ∀ k, holds p' k = if k = l then true else holds p k
  unlock : ∀ {i p l p'}, good i p → code i p = some (.unlock l, p') →
    holds p l = true ∧ ∀ k, holds p' k = if k = l then false else holds p k
  skip : ∀ {i p p'}, good i p → code i p = some (.skip, p') → ∀ k, holds p' k = holds p k
  ends : ∀ {i p}, good i p → code i p = none → ∀ l, holds p l = false

variable {code : ι → π → Option (LockOp Λ × π)} {start : ι → π} {good : ι → π → Prop}
  {holds : π → Λ → Bool}

/-- A lock of a free mutex can be carried out, and so can anything else. -/
theorem lockStep_isSome {f : π → Option (LockOp Λ × π)} {i : ι} {s : Λ → Mutex ι} {p p' : π}
    {op : LockOp Λ} (h : f p = some (op, p')) (hfree : ∀ l, op = .lock l → s l = none) :
    (lockStep f i s p).isSome := by
  cases op with
  | lock l => simp [lockStep, h, LockOp.perform, hfree l rfl, Mutex.lock]
  | unlock l | skip => simp [lockStep, h, LockOp.perform]

theorem lockStep_eq_some {f : π → Option (LockOp Λ × π)} {i : ι} {s s' : Λ → Mutex ι}
    {p p' : π} (h : lockStep f i s p = some (s', p')) :
    ∃ op, f p = some (op, p') ∧ op.perform i s = some s' := by
  simp only [lockStep, Option.bind_eq_some_iff, Option.map_eq_some_iff, Prod.exists,
    Prod.mk.injEq] at h
  obtain ⟨op, p₁, hcode, s₁, hs, rfl, rfl⟩ := h
  exact ⟨op, hcode, hs⟩

namespace Disciplined

/-- One statement moves each mutex as the thread moves into and out of the part of its
code where it holds it. -/
theorem moves (hD : Disciplined code start good holds) {i : ι} {s s' : Λ → Mutex ι} {p p' : π}
    (hp : good i p) (h : lockStep (code i) i s p = some (s', p')) (l : Λ) :
    Mutex.Moves i (s l) (holds p l) (s' l) (holds p' l) := by
  obtain ⟨op, hcode, hop⟩ := lockStep_eq_some h
  cases op with
  | lock k =>
      obtain ⟨hnot, hholds⟩ := hD.lock hp hcode
      obtain ⟨m, hm, rfl⟩ := Option.map_eq_some_iff.mp hop
      obtain ⟨hfree, rfl⟩ := Mutex.lock_eq_some.mp hm
      rw [hholds]
      by_cases hl : l = k
      · subst hl
        rw [Function.update_self, hfree, hnot, if_pos rfl]
        exact .lock
      · rw [Function.update_of_ne hl, if_neg hl]
        exact .keep
  | unlock k =>
      obtain ⟨hholding, hholds⟩ := hD.unlock hp hcode
      cases hop
      rw [hholds]
      by_cases hl : l = k
      · subst hl
        rw [Function.update_self, hholding, if_pos rfl]
        exact .unlock
      · rw [Function.update_of_ne hl, if_neg hl]
        exact .keep
  | skip =>
      cases hop
      rw [hD.skip hp hcode]
      exact .keep

variable [DecidableEq ι]

theorem invariant (hD : Disciplined code start good holds) :
    (lockThreads code start).Inductive fun c =>
      (∀ i, good i (c.threads i)) ∧ ∀ l i, holds (c.threads i) l = true ↔ c.shared l = some i where
  init := by
    refine ⟨fun i => (hD.start i).1, fun l i => ?_⟩
    rw [show holds ((lockThreads code start).init.threads i) l = false from (hD.start i).2 l]
    simp [lockThreads]
  step := by
    intro i c c' hc h
    obtain ⟨hgood, hheld⟩ := hc
    have hmover := Conf.step_mover h
    refine ⟨fun j => ?_, fun l => ?_⟩
    · by_cases hj : j = i
      · subst hj
        obtain ⟨op, hcode, -⟩ := lockStep_eq_some hmover
        exact hD.keeps (hgood j) hcode
      · rw [Conf.step_threads_ne h hj]
        exact hgood j
    · exact (hD.moves (hgood i) hmover l).holder (hheld l) rfl rfl fun j hj => by
        rw [Conf.step_threads_ne h hj]

variable {c : Conf ι (Λ → Mutex ι) π}

/-- **The holder of a mutex** is the thread whose point says so. -/
theorem held (hD : Disciplined code start good holds) (h : (lockThreads code start).Reachable c)
    (l : Λ) (i : ι) : holds (c.threads i) l = true ↔ c.shared l = some i :=
  (hD.invariant.reachable h).2 l i

/-- **Where nobody can move**, a thread that is not done waits for a mutex, whose holder
waits for another one. -/
theorem stuck (hD : Disciplined code start good holds) (h : (lockThreads code start).Reachable c)
    (hstuck : ¬ (lockThreads code start).CanMove c) {i : ι} (hi : code i (c.threads i) ≠ none) :
    ∃ l p j, code i (c.threads i) = some (.lock l, p) ∧ c.shared l = some j
      ∧ code j (c.threads j) ≠ none := by
  obtain ⟨⟨op, p⟩, hcode⟩ := Option.ne_none_iff_exists'.mp hi
  obtain ⟨hgood, hheld⟩ := hD.invariant.reachable h
  have hblocked : ¬ ∀ l, op = .lock l → c.shared l = none := fun hfree =>
    hstuck ⟨i, Conf.step_isSome (f := lockStep (code i) i) (lockStep_isSome hcode hfree)⟩
  obtain ⟨l, hl⟩ := not_forall.mp hblocked
  obtain ⟨rfl, htaken⟩ := Classical.not_imp.mp hl
  obtain ⟨j, hj⟩ := Option.ne_none_iff_exists'.mp htaken
  refine ⟨l, p, j, hcode, hj, fun hdone => ?_⟩
  -- who is done holds nothing
  have hnot := hD.ends (hgood j) hdone l
  rw [(hheld l j).mpr hj] at hnot
  cases hnot

end Disciplined
end Program
end Interleave
