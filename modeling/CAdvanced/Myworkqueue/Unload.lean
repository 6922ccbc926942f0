import CAdvanced.Myworkqueue.Model

/-!
# Myworkqueue — Unload

Whether `work_func` is over when `cleanup_module` has returned. The item is alive while it is
pending or a `work_func` is on its way to schedule it again, and the worker alone does not
revive it: only `cancel_delayed_work` ends that, if it finds no `work_func` on its way. A
`work_func` that has no block behind `nanosecs` is on its way to its death only.
-/

namespace CAdvanced.Myworkqueue

open Interleave

variable {jiffiesToNsecs : UInt64 → UInt64} {s t : State} {e : Env}

/-! ## Steps -/

/-- A `work_func` is running that will schedule itself again. -/
def reschedules (s : State) : Bool := s.work.before .ret && s.stats.nanosecs.isSome

/-- The item is pending, or will be. -/
def alive (s : State) : Bool := s.work.pending || reschedules s

/-- **The worker** changes neither where the module is nor whether there is a block, does not
revive the item, and lets it die only if there is no block. -/
theorem worker_step (hs : Settled s) (h : worker jiffiesToNsecs e s = some t) :
    t.phase = s.phase ∧ t.stats.nanosecs.isSome = s.stats.nanosecs.isSome
      ∧ (alive t = true → alive s = true)
      ∧ (s.stats.nanosecs.isSome = true → alive t = alive s) := by
  unfold worker at h
  cases hrun : s.work.running with
  | none =>
      rw [hrun] at h
      obtain ⟨w, hw, rfl⟩ := Option.map_eq_some_iff.mp h
      obtain ⟨hpending, -, rfl⟩ := WorkItem.begin_eq_some.mp hw
      simp [alive, reschedules, hpending, WorkItem.before]
  | some p =>
      rw [hrun] at h
      cases h
      have hblock := workFunc_isSome jiffiesToNsecs e s.stats s.work p
      refine ⟨rfl, hblock, ?_⟩
      unfold alive reschedules
      dsimp only
      rw [hblock]
      cases hnanosecs : s.stats.nanosecs with
      | none =>
          -- none of the statements up to the one that fails schedules anything
          have hp := hs.early hnanosecs p hrun
          cases p with
          | cyclesCurr | jiffCurr => simp [workFunc]
          | nanosecsCurr => simp [workFunc, hnanosecs]
          | _ => cases hp
      | some nanosecs =>
          -- it is alive up to the call that makes it pending, and after that as it is pending
          cases p <;> simp [workFunc, hnanosecs, WorkItem.before, WorkItem.schedule, hrun]

theorem initModule_phase (e : Env) (s : State) :
    (initModule e s).phase ≠ .cleanupRet ∧ (initModule e s).phase ≠ .gone := by
  unfold initModule
  split
  · simp
  · by_cases hfresh : s.work.schedule.1 = true <;> simp [hfresh]

/-- **The thread of the module**: `cleanup_module` cancels, then returns; everything else
comes before it. -/
theorem moduleThread_cases (h : moduleThread e s = some t) :
    (s.phase = .live ∧ t = { s with work := s.work.cancel.2, phase := .cleanupRet }) ∨
    (s.phase = .cleanupRet ∧ t = { s with phase := .gone }) ∨
    ((s.phase = .init ∨ s.phase = .initRet) ∧ t.phase ≠ .cleanupRet ∧ t.phase ≠ .gone) := by
  unfold moduleThread at h
  cases hphase : s.phase <;> rw [hphase] at h <;> cases h
  case init => exact .inr (.inr ⟨.inl rfl, initModule_phase e s⟩)
  case initRet => exact .inr (.inr ⟨.inr rfl, by simp⟩)
  case live => exact .inl ⟨rfl, rfl⟩
  case cleanupRet => exact .inr (.inl ⟨rfl, rfl⟩)

/-! ## Too early -/

/-- A step of `cleanup_module` that goes past a `work_func`: it cancels while that is on its
way to schedule the work, or returns while that is running. -/
def tooEarly : Actor × Env → State → Bool
  | (.module, _), s =>
      match s.phase with
      | .live => s.work.before .ret && s.stats.nanosecs.isSome
      | .cleanupRet => s.work.running.isSome
      | _ => false
  | (.worker, _), _ => false

/-- Nobody is left of an item that is dead and does not run. -/
theorem idle_iff : s.work.Idle ↔ alive s = false ∧ s.work.running = none := by
  constructor
  · intro hidle
    exact ⟨by simp [alive, reschedules, WorkItem.before, hidle.1, hidle.2], hidle.2⟩
  · intro ⟨hdead, hrun⟩
    exact ⟨by simpa [alive, reschedules, WorkItem.before, hrun] using hdead, hrun⟩

/-- What `cleanup_module` has cancelled is dead. -/
structure Cancelled (s : State) : Prop extends Settled s where
  dead : s.phase = .cleanupRet → alive s = false

/-- `cleanup_module` has cancelled in vain, or is over. -/
def Missed (s : State) : Prop :=
  s.phase = .gone ∨ s.phase = .cleanupRet ∧ s.stats.nanosecs.isSome = true ∧ alive s = true

theorem cancelled_step {l : Actor × Env} (hs : Cancelled s)
    (h : next jiffiesToNsecs l s = some t) (hl : tooEarly l s = false) : Cancelled t := by
  refine ⟨(settled_inductive jiffiesToNsecs).step hs.toSettled h, fun ht => ?_⟩
  obtain ⟨actor, e⟩ := l
  cases actor with
  | worker =>
      obtain ⟨hphase, -, hkeep, -⟩ := worker_step hs.toSettled h
      have hdead := hs.dead (hphase.symm.trans ht)
      exact Bool.eq_false_iff.mpr fun halive => Bool.false_ne_true (hdead.symm.trans (hkeep halive))
  | module =>
      rcases moduleThread_cases h with ⟨hlive, rfl⟩ | ⟨-, rfl⟩ | ⟨-, hne, -⟩
      · rw [tooEarly, hlive] at hl
        exact hl
      · cases ht
      · exact absurd ht hne

/-- The step that cancels in vain, and every step after it. -/
theorem missed_step {l : Actor × Env} (hsettled : Settled s)
    (h : next jiffiesToNsecs l s = some t) (hs : Missed s ∨ tooEarly l s = true) : Missed t := by
  obtain ⟨actor, e⟩ := l
  cases actor with
  | worker =>
      obtain ⟨hphase, hblock, -, hsame⟩ := worker_step hsettled h
      rcases hs.resolve_right Bool.false_ne_true with hgone | ⟨hret, hsome, halive⟩
      · exact .inl (hphase.trans hgone)
      · exact .inr ⟨hphase.trans hret, hblock.trans hsome, (hsame hsome).trans halive⟩
  | module =>
      rcases moduleThread_cases h with ⟨hlive, rfl⟩ | ⟨-, rfl⟩ | ⟨hinit, -⟩
      · have hearly : tooEarly (.module, e) s = true := by
          refine hs.resolve_left fun hmissed => ?_
          simp [Missed, hlive] at hmissed
        rw [tooEarly, hlive] at hearly
        exact .inr ⟨rfl, (Bool.and_eq_true_iff.mp hearly).2, hearly⟩
      · exact .inl rfl
      · -- nothing before `cleanup_module` is too early
        rcases hinit with hinit | hinit <;> simp [Missed, tooEarly, hinit] at hs

/-- When `cleanup_module` is about to return, the item is dead exactly if nothing was too
early so far. -/
theorem cancelled_iff {ls : List (Actor × Env)}
    (h : (myworkqueue jiffiesToNsecs).Reaches ls s) (hret : s.phase = .cleanupRet) :
    (myworkqueue jiffiesToNsecs).count tooEarly ls = 0 ↔ alive s = false := by
  constructor
  · intro hcount
    have hstart : Cancelled start := ⟨(settled_inductive jiffiesToNsecs).init, nofun⟩
    exact (System.exec_of_tally_eq_zero (I := Cancelled)
      (fun hs hnext hl => cancelled_step hs hnext hl) hstart h hcount).dead hret
  · intro hdead
    by_contra hcount
    have hsettled := settled_inductive jiffiesToNsecs
    have hmissed : Missed s :=
      hsettled.exec_of_tally_ne_zero (J := Missed) (p := tooEarly)
        (fun hs hnext hmissed => missed_step hs hnext hmissed) hsettled.init h (.inr hcount)
    simp [Missed, hret, hdead] at hmissed

/-! ## Unloading -/

/-- Whether it is the worker that takes the step. -/
def byWorker : Actor × Env → State → Bool
  | (.worker, _), _ => true
  | (.module, _), _ => false

/-- However it goes on from `s`, the worker takes no step, and the item is not pending. -/
def Quiet (jiffiesToNsecs : UInt64 → UInt64) (s : State) : Prop :=
  ∀ ls u, (myworkqueue jiffiesToNsecs).exec ls s = some u →
    u.work.pending = false ∧ (myworkqueue jiffiesToNsecs).tally byWorker ls s = 0

/-- Where nobody moves, the run is over. -/
theorem quiet_of_idle (hgone : s.phase = .gone) (hidle : s.work.Idle) :
    Quiet jiffiesToNsecs s := by
  intro ls u hrun
  cases ls with
  | nil =>
      cases hrun
      exact ⟨hidle.1, rfl⟩
  | cons l ls =>
      obtain ⟨t, hnext, -⟩ := System.exec_cons_eq_some.mp hrun
      obtain ⟨actor, e⟩ := l
      cases actor with
      | module => simp [myworkqueue, next, moduleThread, hgone] at hnext
      | worker => simp [myworkqueue, next, worker, hidle.2, hidle.begin_eq_none] at hnext

/-- An item that is not idle goes on running, or waits to be taken up. -/
theorem idle_of_quiet (hquiet : Quiet jiffiesToNsecs s) : s.work.Idle := by
  have hpending : s.work.pending = false := (hquiet [] s rfl).1
  refine ⟨hpending, ?_⟩
  cases hrun : s.work.running with
  | none => rfl
  | some p =>
      let e : Env := ⟨0, 0, none, none, none⟩
      obtain ⟨u, hu⟩ : ∃ u, worker jiffiesToNsecs e s = some u := by simp [worker, hrun]
      have hnext : (myworkqueue jiffiesToNsecs).next (.worker, e) s = some u := hu
      have htally := (hquiet [(.worker, e)] u (System.exec_singleton.trans hnext)).2
      rw [System.tally_cons hnext] at htally
      simp [byWorker] at htally

/-- **Unload**: when `cleanup_module` has returned, nothing of `work_func` runs any more and
nothing is pending, exactly if no step of `cleanup_module` went past a `work_func` that had
yet to schedule itself, and its return not past one at all. -/
theorem unload_quiet_iff {ls : List (Actor × Env)} {e : Env}
    (h : (myworkqueue jiffiesToNsecs).Reaches (ls ++ [(.module, e)]) t) (hgone : t.phase = .gone) :
    Quiet jiffiesToNsecs t
      ↔ (myworkqueue jiffiesToNsecs).count tooEarly (ls ++ [(.module, e)]) = 0 := by
  obtain ⟨s, hs, hlast⟩ := System.exec_append_eq_some.mp h
  rw [System.exec_singleton] at hlast
  rcases moduleThread_cases hlast with ⟨-, rfl⟩ | ⟨hret, rfl⟩ | ⟨-, -, hne⟩
  case inl => cases hgone
  case inr.inr => exact absurd hgone hne
  have hcount : (myworkqueue jiffiesToNsecs).count tooEarly (ls ++ [(.module, e)]) =
      (myworkqueue jiffiesToNsecs).count tooEarly ls + s.work.running.isSome.toNat := by
    rw [System.count, System.tally_append hs, System.tally_cons hlast, System.tally_nil]
    simp [tooEarly, hret, System.count]
  calc Quiet jiffiesToNsecs { s with phase := .gone }
      ↔ s.work.Idle := ⟨idle_of_quiet, quiet_of_idle (s := { s with phase := .gone }) rfl⟩
    _ ↔ alive s = false ∧ s.work.running = none := idle_iff
    _ ↔ (myworkqueue jiffiesToNsecs).count tooEarly ls = 0 ∧ s.work.running = none := by
        rw [cancelled_iff hs hret]
    _ ↔ (myworkqueue jiffiesToNsecs).count tooEarly (ls ++ [(.module, e)]) = 0 := by
        rw [hcount]
        cases s.work.running <;> simp

/-- Jiffies of four milliseconds. -/
def nsecs250 (j : UInt64) : UInt64 := j * 4000000

/-- The clocks at the `n`-th step, ten jiffies after the one before. -/
def envAt (n : Nat) : Env :=
  ⟨.ofNat (10 * n), .ofNat (1000 * n), some default, some default, some default⟩

/-- The module is loaded, `work_func` runs once from start to end, and after that the module
is unloaded. -/
def onePeriod : List (Actor × Env) :=
  [(.module, envAt 0), (.module, envAt 1)] ++
    (List.range 15).map (fun n => (.worker, envAt (200 + n))) ++ [(.module, envAt 300)]

theorem unload_quiet_iff_period :
    ∃ t, (myworkqueue nsecs250).Reaches (onePeriod ++ [(.module, envAt 301)]) t ∧
      t.phase = .gone ∧ Quiet nsecs250 t := by
  obtain ⟨t, hrun, hphase⟩ := Option.any_eq_true _ _ |>.mp
    (show (((myworkqueue nsecs250).exec (onePeriod ++ [(.module, envAt 301)]) start).any
      fun t => decide (t.phase = .gone)) = true by decide +kernel)
  have hgone : t.phase = .gone := of_decide_eq_true hphase
  exact ⟨t, hrun, hgone, (unload_quiet_iff hrun hgone).mpr (by decide +kernel)⟩

/-- `rmmod` while `work_func` is at its first statement: it goes on, and schedules itself. -/
theorem not_unload_quiet :
    ¬ ∀ (jiffiesToNsecs : UInt64 → UInt64) (ls : List (Actor × Env)) (e : Env) (t : State),
      (myworkqueue jiffiesToNsecs).Reaches (ls ++ [(.module, e)]) t → t.phase = .gone →
        Quiet jiffiesToNsecs t := by
  intro h
  obtain ⟨t, hrun, hphase⟩ := Option.any_eq_true _ _ |>.mp
    (show (((myworkqueue nsecs250).exec
      ([(.module, envAt 0), (.module, envAt 1), (.worker, envAt 200), (.module, envAt 201)] ++
        [(.module, envAt 202)]) start).any
      fun t => decide (t.phase = .gone ∧ t.work.running = some .cyclesCurr)) = true by
        decide +kernel)
  obtain ⟨hgone, hrunning⟩ := of_decide_eq_true hphase
  have hidle := idle_of_quiet (h nsecs250 _ _ t hrun hgone)
  rw [hidle.2] at hrunning
  cases hrunning

end CAdvanced.Myworkqueue
