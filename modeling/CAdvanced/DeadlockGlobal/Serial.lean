import CAdvanced.DeadlockGlobal.Gate
import CAdvanced.Interleave.Serial

/-!
# DeadlockGlobal — Serial

What the gate costs: no two workers are ever on their way at the same time. The workers run
one after the other, each with its six statements, and a schedule decides about nothing but
their order.
-/

namespace CAdvanced.DeadlockGlobal

open Interleave System

/-- The statements that a worker has behind it. -/
def Pc.phase : Pc → Nat
  | .lockG => 0
  | .ifLockM1 | .elseLockM2 => 1
  | .ifLockM2 | .elseLockM1 => 2
  | .unlockM1 => 3
  | .unlockM2 => 4
  | .unlockG => 5
  | .returned => 6

theorem Pc.phase_le (t : Pc) : t.phase ≤ 6 := by
  cases t <;> decide

theorem Pc.eq_returned {t : Pc} (h : t.phase = 6) : t = .returned := by
  cases t with
  | returned => rfl
  | _ => cases h

theorem Pc.eq_lockG {t : Pc} (h : t.phase = 0) : t = .lockG := by
  cases t with
  | lockG => rfl
  | _ => cases h

/-- Whoever is on its way holds the gate. -/
theorem Pc.holds_g_iff {t : Pc} : t.holds .g = true ↔ ¬ (t.phase = 0 ∨ t.phase = 6) := by
  cases t <;> decide

variable {ι : Type} {arg : ι → Int}

theorem worker_phase {a : Int} {op : Op} {t t' : Pc} (h : worker a t = some (op, t')) :
    t'.phase = t.phase + 1 := by
  cases t with
  | lockG =>
      cases h
      split <;> rfl
  | _ => cases h <;> rfl

theorem code_worker {a : Int} {j : ι} {s s' : Shared ι} {t t' : Pc}
    (h : code a j s t = some (s', t')) :
    ∃ op, worker a t = some (op, t') ∧ perform j op s = some s' := by
  obtain ⟨⟨op, u⟩, hworker, hperform⟩ := Option.bind_eq_some_iff.mp h
  obtain ⟨s'', hs, heq⟩ := Option.map_eq_some_iff.mp hperform
  cases heq
  exact ⟨op, hworker, hs⟩

variable {c c' : State ι}

/-- Where nobody holds the gate, everybody is at one end of its code. -/
theorem Held.ends_of_free (hc : Held c) (hfree : c.shared .g = none) (j : ι) :
    (c.threads j).phase = 0 ∨ (c.threads j).phase = 6 := by
  by_contra hway
  have hheld := (hc .g j).mp (Pc.holds_g_iff.mpr hway)
  rw [hfree] at hheld
  cases hheld

/-- **The workers are gated**, by the mutex `g`. -/
theorem gated [DecidableEq ι] : Gated (workers arg) 6 Pc.phase Held where
  inv := held_inductive
  start _ := rfl
  step := by
    intro i c c' hc h
    obtain ⟨op, hworker, -⟩ := code_worker (Conf.step_mover h)
    have hphase := worker_phase hworker
    have hle := (c'.threads i).phase_le
    refine ⟨by omega, fun j => ?_⟩
    split
    case isTrue hj => rw [hj, hphase]
    case isFalse hj => rw [Conf.step_threads_ne h hj]
  gate := by
    intro i c c' hc h hfirst
    obtain ⟨op, hworker, hop⟩ := code_worker (Conf.step_mover h)
    rw [Pc.eq_lockG hfirst] at hworker
    obtain ⟨rfl, -⟩ := Prod.mk.inj (Option.some.inj hworker)
    obtain ⟨m, hm, -⟩ := Option.map_eq_some_iff.mp hop
    exact hc.ends_of_free (Mutex.lock_eq_some.mp hm).1
  moves := by
    intro i c hc hothers hless
    rcases hgate : c.shared .g with - | k
    · have hfirst := Pc.eq_lockG ((hc.ends_of_free hgate i).resolve_right (by omega))
      have hsome : (code (arg i) i c.shared (c.threads i)).isSome := by
        rw [hfirst]
        exact code_lock rfl hgate
      exact Conf.step_isSome hsome
    · -- the holder of the gate is on its way, so it is `i`
      have hk : k = i := by
        by_contra hne
        exact Pc.holds_g_iff.mp ((hc .g k).mpr hgate) (hothers k hne)
      exact Conf.step_isSome (hc.holder_moves (hk ▸ hgate))

/-- **The gate makes the workers serial**, for any number of them with any arguments: the
schedules that can happen are the prefixes of those in which the workers run one after the
other in some order, six statements each; and a run that nobody can continue has all workers
returned and all mutexes free. -/
theorem deadlock_global_serial [DecidableEq ι] [Fintype ι] (arg : ι → Int) (ls : List ι) :
    ((∃ c, (workers arg).Reaches ls c)
      ↔ ∃ order : List ι, order.Nodup ∧ (∀ i, i ∈ order) ∧ ls <+: serial 6 order)
    ∧ ∀ c, (workers arg).Reaches ls c →
      (¬ (workers arg).CanMove c ↔ c = ⟨fun _ => none, fun _ => .returned⟩) := by
  have hG : Gated (workers arg) 6 Pc.phase Held := gated
  refine ⟨hG.reaches_iff, fun c hrun => ⟨fun hstuck => ?_, ?_⟩⟩
  · have hall : ∀ i, c.threads i = .returned := by
      intro i
      apply Pc.eq_returned
      by_contra hne
      have hle := (c.threads i).phase_le
      exact hstuck ((hG.canMove_iff hrun).mpr ⟨i, by omega⟩)
    have hfree : ∀ l, c.shared l = none := by
      intro l
      rw [Option.eq_none_iff_forall_ne_some]
      intro j hj
      have hholds := (held_inductive.reachable hrun.reachable l j).mpr hj
      rw [hall] at hholds
      cases hholds
    obtain ⟨s, t⟩ := c
    rw [Conf.mk.injEq]
    exact ⟨funext hfree, funext hall⟩
  · rintro rfl hmove
    obtain ⟨i, hi⟩ := (hG.canMove_iff hrun).mp hmove
    exact absurd hi (Nat.lt_irrefl 6)

end CAdvanced.DeadlockGlobal
