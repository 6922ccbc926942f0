import CAdvanced.Interleave.Confluence
import CAdvanced.Interleave.Sync

/-!
# Interleave — straight-line threads

Threads without loops or branches that post and wait at semaphores, create and join each
other, and print. When no two of them wait at the same semaphore, nothing that one of them
does can get in the way of another (`straight_commutes`), and a single run shows what every
schedule comes to.
-/

namespace Interleave.Straight

open Interleave.System

/-- A statement. -/
inductive Stmt (ι κ ω : Type*) where
  | skip
  | print (o : ω)
  | post (k : κ)
  | wait (k : κ)
  | create (i : ι)
  | join (i : ι)
  deriving DecidableEq, Repr

/-- The semaphores, which threads have been created, and how far each of them has come. -/
@[ext]
structure State (ι κ : Type*) where
  sems : κ → Nat
  created : ι → Bool
  pc : ι → Nat

section Program
variable {ι κ ω : Type*} [DecidableEq ι] [DecidableEq κ]

/-- Carries out a statement; a thread that is joined must have come to its end. -/
def perform (program : ι → List (Stmt ι κ ω)) (s : State ι κ) :
    Stmt ι κ ω → Option (State ι κ)
  | .skip | .print _ => some s
  | .post k => some { s with sems := Function.update s.sems k (semPost (s.sems k)) }
  | .wait k => (semWait (s.sems k)).map fun n => { s with sems := Function.update s.sems k n }
  | .create j => some { s with created := Function.update s.created j true }
  | .join j => if s.created j ∧ (program j).length ≤ s.pc j then some s else none

/-- One step of thread `i`. -/
def step (program : ι → List (Stmt ι κ ω)) (i : ι) (s : State ι κ) : Option (State ι κ) :=
  if s.created i then
    (program i)[s.pc i]?.bind fun op =>
      (perform program s op).map fun t =>
        { t with pc := Function.update t.pc i (s.pc i + 1) }
  else none

/-- The threads; `main` has been created, and the semaphores have been initialized. -/
def straight (program : ι → List (Stmt ι κ ω)) (main : ι) (sems : κ → Nat) :
    System (State ι κ) ι :=
  ⟨⟨sems, fun i => i = main, fun _ => 0⟩, step program⟩

/-- What a step prints. -/
def printed (program : ι → List (Stmt ι κ ω)) (i : ι) (s : State ι κ) : Option ω :=
  match (program i)[s.pc i]? with
  | some (.print o) => some o
  | _ => none

/-- The thread has come to the end of its code. -/
def Done (program : ι → List (Stmt ι κ ω)) (s : State ι κ) (i : ι) : Prop :=
  (program i).length ≤ s.pc i

instance (program : ι → List (Stmt ι κ ω)) (s : State ι κ) (i : ι) :
    Decidable (Done program s i) := inferInstanceAs (Decidable (_ ≤ _))

/-! ## The effect of a statement -/

/-- How many units of a semaphore a statement takes. -/
def Stmt.takes : Stmt ι κ ω → κ → Nat
  | .wait k, k' => if k' = k then 1 else 0
  | _, _ => 0

/-- How many it gives. -/
def Stmt.gives : Stmt ι κ ω → κ → Nat
  | .post k, k' => if k' = k then 1 else 0
  | _, _ => 0

/-- Which thread it creates. -/
def Stmt.creates : Stmt ι κ ω → ι → Bool
  | .create j, j' => j' = j
  | _, _ => false

/-- The statement can be carried out. -/
structure Stmt.Enabled (program : ι → List (Stmt ι κ ω)) (s : State ι κ) (op : Stmt ι κ ω) :
    Prop where
  takes : ∀ k, op.takes k ≤ s.sems k
  joins : ∀ j, op = .join j → s.created j = true ∧ Done program s j

/-- What a statement of thread `i` makes of the state. -/
def Stmt.effect (op : Stmt ι κ ω) (i : ι) (s : State ι κ) : State ι κ :=
  ⟨fun k => s.sems k + op.gives k - op.takes k, fun j => s.created j || op.creates j,
    Function.update s.pc i (s.pc i + 1)⟩

variable {program : ι → List (Stmt ι κ ω)} {s t : State ι κ} {i : ι}

/-- **One statement for all**: it is carried out when it is enabled, and then has its
effect. -/
theorem perform_eq_some {op : Stmt ι κ ω} {u : State ι κ} :
    (perform program s op).map (fun t => { t with pc := Function.update t.pc i (s.pc i + 1) })
        = some u
      ↔ op.Enabled program s ∧ u = op.effect i s := by
  cases op with
  | skip | print o =>
      have heq : (⟨s.sems, s.created, Function.update s.pc i (s.pc i + 1)⟩ : State ι κ)
          = Stmt.effect (ω := ω) .skip i s := by
        ext k
        · rfl
        · simp [Stmt.effect, Stmt.creates]
        · rfl
      rw [perform, Option.map_some, Option.some.injEq, heq, eq_comm]
      exact ⟨fun h => ⟨⟨fun _ => Nat.zero_le _, nofun⟩, h⟩, And.right⟩
  | post k =>
      have heq : (⟨Function.update s.sems k (semPost (s.sems k)), s.created,
          Function.update s.pc i (s.pc i + 1)⟩ : State ι κ)
          = Stmt.effect (ω := ω) (.post k) i s := by
        ext k'
        · by_cases hk : k' = k
          · subst hk
            simp [Stmt.effect, Stmt.gives, Stmt.takes, semPost]
          · simp [Stmt.effect, Stmt.gives, Stmt.takes, hk]
        · simp [Stmt.effect, Stmt.creates]
        · rfl
      rw [perform, Option.map_some, Option.some.injEq, heq, eq_comm]
      exact ⟨fun h => ⟨⟨fun _ => Nat.zero_le _, nofun⟩, h⟩, And.right⟩
  | wait k =>
      have heq : ∀ n, s.sems k = n + 1 → (⟨Function.update s.sems k n, s.created,
          Function.update s.pc i (s.pc i + 1)⟩ : State ι κ)
          = Stmt.effect (ω := ω) (.wait k) i s := by
        intro n hn
        ext k'
        · by_cases hk : k' = k
          · subst hk
            simp [Stmt.effect, Stmt.gives, Stmt.takes, hn]
          · simp [Stmt.effect, Stmt.gives, Stmt.takes, hk]
        · simp [Stmt.effect, Stmt.creates]
        · rfl
      rw [perform, Option.map_map, Option.map_eq_some_iff]
      constructor
      · rintro ⟨n, hn, rfl⟩
        have hk := semWait_eq_some.mp hn
        refine ⟨⟨fun k' => ?_, nofun⟩, heq n hk⟩
        by_cases hk' : k' = k
        · simp [Stmt.takes, hk', hk]
        · simp [Stmt.takes, hk']
      · rintro ⟨henabled, rfl⟩
        have hpos := henabled.takes k
        rw [Stmt.takes, if_pos rfl] at hpos
        obtain ⟨n, hn⟩ := Nat.exists_eq_add_of_le' hpos
        exact ⟨n, semWait_eq_some.mpr hn, heq n hn⟩
  | create j =>
      have heq : (⟨s.sems, Function.update s.created j true,
          Function.update s.pc i (s.pc i + 1)⟩ : State ι κ)
          = Stmt.effect (ω := ω) (.create j) i s := by
        ext j'
        · rfl
        · by_cases hj : j' = j
          · subst hj
            simp [Stmt.effect, Stmt.creates]
          · simp [Stmt.effect, Stmt.creates, hj]
        · rfl
      rw [perform, Option.map_some, Option.some.injEq, heq, eq_comm]
      exact ⟨fun h => ⟨⟨fun _ => Nat.zero_le _, nofun⟩, h⟩, And.right⟩
  | join j =>
      have heq : (⟨s.sems, s.created, Function.update s.pc i (s.pc i + 1)⟩ : State ι κ)
          = Stmt.effect (ω := ω) (.join j) i s := by
        ext k
        · rfl
        · simp [Stmt.effect, Stmt.creates]
        · rfl
      rw [perform]
      split
      · next hjoin =>
        rw [Option.map_some, Option.some.injEq, heq, eq_comm]
        refine ⟨fun h => ⟨⟨fun _ => Nat.zero_le _, ?_⟩, h⟩, And.right⟩
        rintro j' ⟨⟩
        exact hjoin
      · next hjoin =>
        exact ⟨nofun, fun h => absurd (h.1.joins j rfl) hjoin⟩

theorem step_eq_some : step program i s = some t
    ↔ s.created i = true ∧ ∃ op, (program i)[s.pc i]? = some op ∧ op.Enabled program s
      ∧ t = op.effect i s := by
  unfold step
  cases s.created i with
  | false => simp
  | true => simp only [if_true, Option.bind_eq_some_iff, perform_eq_some, true_and]

/-! ## Confluence -/

/-- No two threads wait at the same semaphore. -/
def ExclusiveWaits (program : ι → List (Stmt ι κ ω)) : Prop :=
  ∀ i j k, .wait k ∈ program i → .wait k ∈ program j → i = j

/-- A statement of another thread leaves a statement enabled. -/
theorem Stmt.Enabled.effect {op op' : Stmt ι κ ω} (h : op'.Enabled program s)
    (hown : op.Enabled program s) (hapart : ∀ k, op.takes k = 0 ∨ op'.takes k = 0) :
    op'.Enabled program (op.effect i s) where
  takes := by
    intro k
    have hk := h.takes k
    have hk' := hown.takes k
    show op'.takes k ≤ s.sems k + op.gives k - op.takes k
    rcases hapart k with hzero | hzero <;> omega
  joins := by
    intro j hj
    obtain ⟨hcreated, hdone⟩ := h.joins j hj
    refine ⟨?_, ?_⟩
    · show (s.created j || op.creates j) = true
      rw [hcreated, Bool.true_or]
    · show (program j).length ≤ Function.update s.pc i (s.pc i + 1) j
      by_cases hji : j = i
      · subst hji
        rw [Function.update_self]
        exact Nat.le_succ_of_le hdone
      · rw [Function.update_of_ne hji]
        exact hdone

/-- Two statements of different threads have the same effect in either order. -/
theorem Stmt.effect_comm {op op' : Stmt ι κ ω} {j : ι} (hij : i ≠ j)
    (h : op.Enabled program s) (h' : op'.Enabled program s)
    (hapart : ∀ k, op.takes k = 0 ∨ op'.takes k = 0) :
    op'.effect j (op.effect i s) = op.effect i (op'.effect j s) := by
  apply State.ext
  · ext k
    have hk := h.takes k
    have hk' := h'.takes k
    show s.sems k + op.gives k - op.takes k + op'.gives k - op'.takes k
      = s.sems k + op'.gives k - op'.takes k + op.gives k - op.takes k
    rcases hapart k with hzero | hzero <;> omega
  · funext k
    show (s.created k || op.creates k || op'.creates k)
      = (s.created k || op'.creates k || op.creates k)
    rw [Bool.or_assoc, Bool.or_comm (op.creates k), ← Bool.or_assoc]
  · show Function.update (Function.update s.pc i (s.pc i + 1)) j
        (Function.update s.pc i (s.pc i + 1) j + 1)
      = Function.update (Function.update s.pc j (s.pc j + 1)) i
        (Function.update s.pc j (s.pc j + 1) i + 1)
    rw [Function.update_of_ne hij.symm, Function.update_of_ne hij,
      Function.update_comm hij.symm]

/-- **Threads that wait at semaphores of their own commute**, as far as is shown what depends
on the place of the thread that moves. -/
theorem straight_commutes {α : Type*} {obs : ι → State ι κ → Option α}
    (hwaits : ExclusiveWaits program) (hobs : ∀ i s t, s.pc i = t.pc i → obs i s = obs i t)
    (main : ι) (sems : κ → Nat) :
    (straight program main sems).Commutes (fun _ => True) obs where
  invariant := inductive_true
  step := by
    intro i j s t t' _ hij hi hj
    obtain ⟨hcreated, op, hop, henabled, rfl⟩ := step_eq_some.mp hi
    obtain ⟨hcreated', op', hop', henabled', rfl⟩ := step_eq_some.mp hj
    have hapart : ∀ k, op.takes k = 0 ∨ op'.takes k = 0 := by
      intro k
      by_contra hboth
      obtain ⟨htakes, htakes'⟩ := not_or.mp hboth
      have hwait : ∀ {o : Stmt ι κ ω}, o.takes k ≠ 0 → o = .wait k := by
        intro o ho
        cases o <;> simp_all [Stmt.takes]
      rw [hwait htakes] at hop
      rw [hwait htakes'] at hop'
      exact hij (hwaits i j k (List.mem_of_getElem? hop) (List.mem_of_getElem? hop'))
    refine ⟨op'.effect j (op.effect i s), ?_, ?_⟩
    · refine step_eq_some.mpr ⟨?_, op', ?_, henabled'.effect henabled hapart, rfl⟩
      · show (s.created j || op.creates j) = true
        rw [hcreated', Bool.true_or]
      · show (program j)[Function.update s.pc i (s.pc i + 1) j]? = some op'
        rw [Function.update_of_ne hij.symm]
        exact hop'
    · refine step_eq_some.mpr ⟨?_, op, ?_, henabled.effect henabled' fun k => (hapart k).symm,
        Stmt.effect_comm hij henabled henabled' hapart⟩
      · show (s.created i || op'.creates i) = true
        rw [hcreated, Bool.true_or]
      · show (program i)[Function.update s.pc j (s.pc j + 1) i]? = some op
        rw [Function.update_of_ne hij]
        exact hop
  obs := by
    intro i j s t _ hij hi
    obtain ⟨-, op, -, -, rfl⟩ := step_eq_some.mp hi
    apply hobs
    exact Function.update_of_ne hij.symm _ _

omit [DecidableEq ι] [DecidableEq κ] in
theorem printed_congr (i : ι) (s t : State ι κ) (h : s.pc i = t.pc i) :
    printed program i s = printed program i t := by
  unfold printed
  rw [h]

end Program
end Interleave.Straight
