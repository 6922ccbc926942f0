import CAdvanced.KernelThreads.Model

/-!
# KernelThreads — Unload

What `ModExit` passes to `task_pid` and `kill_pid`, and in which state it leaves the threads.
That all threads have completed is the rule for modules that wait for each of theirs, and that
`list_mutex` is not held then follows from where `thread_code` holds it. The threads also end by
themselves, and nothing holds on to them: so they may be gone when `ModExit` comes to them. They
are not as long as a wait is before them that neither its time nor the signal has ended.
-/

namespace CAdvanced

open Interleave KernelModule

/-! ## The mutex -/

namespace Mysemaphore

/-- Where `thread_code` holds `list_mutex`. -/
def Pc.inside : Pc → Bool
  | .increment _ | .printCounter _ | .mutexUnlock _ => true
  | _ => false

/-- Whether a thread is there; nobody is who has called `complete_and_exit`. -/
def holds (t : Kthread Pc) : Bool :=
  match t.phase with
  | .code p => p.inside
  | _ => false

/-- **One step** of `thread_code` takes the mutex on the way in and frees it on the way out. -/
theorem threadCode_moves {j : ThreadId} {timedOut : Bool} {s s' : Shared} {g g' : Sigterm} {p : Pc}
    {q : Option Pc} (h : threadCode j timedOut s g p = some (s', g', q)) :
    Mutex.Moves j s.listMutex p.inside s'.listMutex (q.any Pc.inside) := by
  cases p with
  | mutexLock i =>
      simp only [threadCode] at h
      split at h
      case h_1 m hlock =>
        cases h
        obtain ⟨hfree, rfl⟩ := Mutex.lock_eq_some.mp hlock
        rw [hfree]
        exact .lock
      case h_2 =>
        cases h
        exact .keep
  | mutexUnlock i =>
      cases h
      exact .unlock
  | asleep i =>
      simp only [threadCode] at h
      split_ifs at h <;> cases h <;> exact .keep
  | loop i =>
      cases h
      refine .of_eq rfl ?_
      split <;> rfl
  | lockSignal i =>
      cases h
      refine .of_eq rfl ?_
      cases g <;> rfl
  | waitEvent i =>
      cases h
      refine .of_eq rfl ?_
      cases g <;> rfl
  | wokeUp i interrupted =>
      cases h
      refine .of_eq rfl ?_
      cases interrupted <;> rfl
  | allowSignal | increment i | printCounter i | printInterrupted =>
      cases h
      exact .keep

/-- The mutex is held by the thread that is inside, and by nobody else. -/
def Holder (c : State ThreadId Shared Pc) : Prop :=
  ∀ j, holds (c.threads j) = true ↔ c.shared.data.listMutex = some j

theorem thread_moves {j : ThreadId} {timedOut : Bool} {m m' : ModuleMem ThreadId Shared}
    {t t' : Kthread Pc} (h : mysemaphore.thread j timedOut m t = some (m', t')) :
    Mutex.Moves j m.data.listMutex (holds t) m'.data.listMutex (holds t') := by
  obtain ⟨phase, g⟩ := t
  cases phase with
  | code p =>
      obtain ⟨⟨s, g', q⟩, hcode, heq⟩ := Option.map_eq_some_iff.mp h
      have hmoves := threadCode_moves hcode
      cases heq
      cases q <;> exact hmoves
  | complete | doExit =>
      cases h
      exact .keep
  | ended => cases h

theorem holder_step {c c' : State ThreadId Shared Pc} {e : ModuleEvent ThreadId} (hc : Holder c)
    (h : mysemaphore.next e c = some c') : Holder c' := by
  have hsame : (∀ j, (c'.threads j).phase = (c.threads j).phase) →
      c'.shared.data = c.shared.data → Holder c' := by
    intro hphase hdata j
    rw [hdata, holds, hphase j]
    exact hc j
  cases e with
  | thread i b =>
      refine (thread_moves (Conf.step_mover h)).holder hc rfl rfl ?_
      intro j hj
      rw [Conf.step_threads_ne h hj]
  | sigterm i =>
      obtain ⟨hmem, hphase⟩ := signal_spec h
      exact hsame hphase (congrArg ModuleMem.data hmem)
  | modExit =>
      obtain ⟨hphase, hdata, -⟩ := modExit_spec h
      exact hsame hphase hdata

theorem holder_inductive : mysemaphore.system.Inductive Holder := by
  refine ⟨?_, holder_step⟩
  intro j
  simp [KernelModule.system, start, holds, mysemaphore, Pc.inside]

/-- A thread that has called `complete_and_exit` does not hold `list_mutex`. -/
theorem not_holding {ls : List (ModuleEvent ThreadId)} {c : State ThreadId Shared Pc}
    (h : mysemaphore.system.Reaches ls c) (j : ThreadId) (hleft : (c.threads j).inCode = false) :
    c.shared.data.listMutex ≠ some j := by
  intro hmutex
  have hholds := (holder_inductive.reachable h.reachable j).mpr hmutex
  unfold holds at hholds
  unfold Kthread.inCode at hleft
  split at hholds
  case h_1 p hphase =>
    rw [hphase] at hleft
    cases hleft
  case h_2 => cases hholds

end Mysemaphore

/-! ## The last wait -/

namespace Mykthread

/-- The step ends the last of the three waits of `print_messages`: its time is over, or the
signal is there. -/
def lastWaitOver (timedOut : Bool) (sigterm : Sigterm) : Pc → Bool
  | .waitEvent i => i = 2 && sigterm = .pending
  | .asleep i => i = 2 && (timedOut || sigterm = .pending)
  | _ => false

/-- Where a wait is still to come, or not over. -/
def Pc.waits : Pc → Prop
  | .allowSignal => True
  | .loop i | .waitEvent i | .asleep i => i < 3
  | .printk i => i + 1 < 3

theorem waits_step {timedOut : Bool} {g g' : Sigterm} {p : Pc} {q : Option Pc} (hp : p.waits)
    (h : printMessages timedOut g p = some (g', q)) (hover : lastWaitOver timedOut g p = false) :
    ∃ p', q = some p' ∧ p'.waits := by
  cases p with
  | allowSignal =>
      cases h
      exact ⟨_, rfl, Nat.zero_lt_succ 2⟩
  | loop i =>
      cases h
      have hi : i < 3 := hp
      exact ⟨_, if_pos hi, hi⟩
  | printk i =>
      cases h
      exact ⟨_, rfl, hp⟩
  | waitEvent i =>
      cases h
      have hi : i < 3 := hp
      refine ⟨_, rfl, ?_⟩
      simp only [lastWaitOver, Bool.and_eq_false_imp, decide_eq_true_eq, decide_eq_false_iff_not]
        at hover
      split_ifs with hg
      · have hne : i ≠ 2 := fun heq => hover heq hg
        show i + 1 < 3
        omega
      · exact hi
  | asleep i =>
      have hi : i < 3 := hp
      simp only [printMessages] at h
      split_ifs at h with hwake
      cases h
      refine ⟨_, rfl, ?_⟩
      have hne : i ≠ 2 := by
        rintro rfl
        simp only [lastWaitOver, hwake, decide_true, Bool.and_self, Bool.true_eq_false] at hover
      show i + 1 < 3
      omega

end Mykthread

namespace Mysemaphore

/-- The step ends the waiting of `thread_code`: the time of the second wait is over, or the
signal is there, in a wait or in a try for the mutex. -/
def lastWaitOver (timedOut : Bool) (sigterm : Sigterm) : Pc → Bool
  | .lockSignal _ | .waitEvent _ => sigterm = .pending
  | .asleep i => if timedOut then i = 1 else sigterm = .pending
  | _ => false

/-- Where a wait is still to come, or not over. -/
def Pc.waits : Pc → Prop
  | .allowSignal => True
  | .loop i | .mutexLock i | .lockSignal i | .increment i | .printCounter i | .mutexUnlock i
  | .waitEvent i | .asleep i => i < 2
  | .wokeUp i interrupted => i + 1 < 2 ∧ interrupted = false
  | .printInterrupted => False

theorem waits_step {j : ThreadId} {timedOut : Bool} {s s' : Shared} {g g' : Sigterm} {p : Pc}
    {q : Option Pc} (hp : p.waits) (h : threadCode j timedOut s g p = some (s', g', q))
    (hover : lastWaitOver timedOut g p = false) : ∃ p', q = some p' ∧ p'.waits := by
  cases p with
  | allowSignal =>
      cases h
      exact ⟨_, rfl, Nat.zero_lt_succ 1⟩
  | loop i =>
      cases h
      have hi : i < 2 := hp
      exact ⟨_, if_pos hi, hi⟩
  | mutexLock i =>
      simp only [threadCode] at h
      split at h <;> cases h <;> exact ⟨_, rfl, hp⟩
  | increment i | printCounter i | mutexUnlock i =>
      cases h
      exact ⟨_, rfl, hp⟩
  | lockSignal i | waitEvent i =>
      cases h
      have hg : g ≠ .pending := of_decide_eq_false hover
      exact ⟨_, congrArg some (if_neg hg), hp⟩
  | asleep i =>
      have hi : i < 2 := hp
      simp only [threadCode] at h
      cases timedOut with
      | true =>
          cases h
          have hne : i ≠ 1 := of_decide_eq_false hover
          exact ⟨_, rfl, by omega, rfl⟩
      | false =>
          have hg : g ≠ .pending := of_decide_eq_false hover
          simp only [Bool.false_eq_true, if_false, if_neg hg] at h
          cases h
  | wokeUp i interrupted =>
      cases h
      obtain ⟨hi, rfl⟩ : i + 1 < 2 ∧ interrupted = false := hp
      exact ⟨_, rfl, hi⟩
  | printInterrupted => cases hp

end Mysemaphore

/-! ## The unload -/

/-- A run unloads soundly: only living threads are passed to `task_pid` and `kill_pid`, and if
`ModExit` has returned, all threads have completed. -/
structure Unloads {ι σ π : Type} [DecidableEq ι] (M : KernelModule ι σ π)
    (ls : List (ModuleEvent ι)) (c : State ι σ π) : Prop where
  alive : ∀ b ∈ M.system.trace passes ls M.start, b = true
  completed : c.shared.exit = [] → ∀ i, (c.threads i).completed = true

/-- A run of `mysemaphore` unloads soundly, and no thread has called `complete_and_exit` with
`list_mutex` held. -/
def Mysemaphore.UnloadsUnlocked (ls : List (ModuleEvent Mysemaphore.ThreadId))
    (c : State Mysemaphore.ThreadId Mysemaphore.Shared Mysemaphore.Pc) : Prop :=
  Unloads Mysemaphore.mysemaphore ls c
    ∧ ∀ j, (c.threads j).inCode = false → c.shared.data.listMutex ≠ some j

theorem Mykthread.alive {ls : List (ModuleEvent Unit)} {c : State Unit Unit Pc}
    (h : mykthread.system.Reaches ls c)
    (hearly : mykthread.system.count (early lastWaitOver) ls = 0) :
    ∀ b ∈ mykthread.system.trace passes ls mykthread.start, b = true := by
  have hentry : mykthread.entry.waits := trivial
  refine all_alive_of_not_early hentry ?_ h hearly
  intro i b s g p r hp hcode hover
  obtain ⟨r, hr, rfl⟩ := Option.map_eq_some_iff.mp hcode
  exact waits_step hp hr hover

theorem Mysemaphore.alive {ls : List (ModuleEvent ThreadId)} {c : State ThreadId Shared Pc}
    (h : mysemaphore.system.Reaches ls c)
    (hearly : mysemaphore.system.count (early lastWaitOver) ls = 0) :
    ∀ b ∈ mysemaphore.system.trace passes ls mysemaphore.start, b = true := by
  have hentry : mysemaphore.entry.waits := trivial
  exact all_alive_of_not_early hentry waits_step h hearly

/-- **Unload**, of both modules. `ModExit` returns after all threads have completed, and none of
them has done so holding `list_mutex`, in every run. Only living threads are passed to `task_pid`
and `kill_pid` in every run in which no thread leaves its last wait, because its time is over or
for a signal, before the last call of `ModExit` that names it. -/
theorem unload_threads {ls : List (ModuleEvent Unit)} {c : State Unit Unit Mykthread.Pc}
    (h : Mykthread.mykthread.system.Reaches ls c) {ls' : List (ModuleEvent Mysemaphore.ThreadId)}
    {c' : State Mysemaphore.ThreadId Mysemaphore.Shared Mysemaphore.Pc}
    (h' : Mysemaphore.mysemaphore.system.Reaches ls' c') :
    ((c.shared.exit = [] → ∀ i, (c.threads i).completed = true)
      ∧ (Mykthread.mykthread.system.count (early Mykthread.lastWaitOver) ls = 0 →
        Unloads Mykthread.mykthread ls c))
    ∧ (c'.shared.exit = [] → ∀ j, (c'.threads j).completed = true
        ∧ c'.shared.data.listMutex ≠ some j)
    ∧ (Mysemaphore.mysemaphore.system.count (early Mysemaphore.lastWaitOver) ls' = 0 →
        Mysemaphore.UnloadsUnlocked ls' c') := by
  have hret := completed_of_returned (M := Mykthread.mykthread) rfl h
  have hret' := completed_of_returned (M := Mysemaphore.mysemaphore) rfl h'
  have hfree := Mysemaphore.not_holding h'
  refine ⟨⟨hret, ?_⟩, ?_, ?_⟩
  · intro hearly
    exact ⟨Mykthread.alive h hearly, hret⟩
  · intro hexit j
    exact ⟨hret' hexit j, hfree j (Kthread.not_inCode_of_completed (hret' hexit j))⟩
  · intro hearly
    exact ⟨⟨Mysemaphore.alive h' hearly, hret'⟩, hfree⟩

/-- `n` steps of thread `i`, whose timer has always run out. -/
def threadSteps {ι : Type} (i : ι) (n : Nat) : List (ModuleEvent ι) :=
  List.replicate n (.thread i true)

/-- `rmmod` comes when the threads have allowed the signal, and the signal ends all their
waits: that of `mykthread` still goes through its three rounds, those of `mysemaphore` leave
theirs. -/
theorem unload_threads_soon :
    (∃ ls c, Mykthread.mykthread.system.Reaches ls c ∧ c.shared.exit = []
      ∧ Unloads Mykthread.mykthread ls c)
    ∧ ∃ ls c, Mysemaphore.mysemaphore.system.Reaches ls c ∧ c.shared.exit = []
      ∧ Mysemaphore.UnloadsUnlocked ls c := by
  let ls : List (ModuleEvent Unit) :=
    threadSteps () 1 ++ [.modExit, .modExit] ++ threadSteps () 11 ++ [.modExit]
  let ls' : List (ModuleEvent Mysemaphore.ThreadId) :=
    threadSteps .threadId1 1 ++ threadSteps .threadId2 1 ++ List.replicate 4 .modExit
      ++ threadSteps .threadId1 9 ++ threadSteps .threadId2 9 ++ List.replicate 2 .modExit
  obtain ⟨c, hrun, hexit⟩ := Option.any_eq_true _ _ |>.mp
    (show ((Mykthread.mykthread.system.exec ls Mykthread.mykthread.start).any
      fun c => decide (c.shared.exit = [])) = true by decide +kernel)
  obtain ⟨c', hrun', hexit'⟩ := Option.any_eq_true _ _ |>.mp
    (show ((Mysemaphore.mysemaphore.system.exec ls' Mysemaphore.mysemaphore.start).any
      fun c => decide (c.shared.exit = [])) = true by decide +kernel)
  obtain ⟨⟨-, hsound⟩, -, hsound'⟩ := unload_threads hrun hrun'
  exact ⟨⟨ls, c, hrun, of_decide_eq_true hexit, hsound (by decide +kernel)⟩,
    ls', c', hrun', of_decide_eq_true hexit', hsound' (by decide +kernel)⟩

/-- A thread goes through all its rounds, completes and ends by itself, and `rmmod` comes after
that: `ModExit` passes to `task_pid` a thread that is no more. -/
theorem not_unload_threads :
    (¬ ∀ ls c, Mykthread.mykthread.system.Reaches ls c → Unloads Mykthread.mykthread ls c)
    ∧ ¬ ∀ ls c, Mysemaphore.mysemaphore.system.Reaches ls c →
      Mysemaphore.UnloadsUnlocked ls c := by
  constructor
  · intro h
    obtain ⟨c, hrun, -⟩ := Option.any_eq_true _ _ |>.mp
      (show ((Mykthread.mykthread.system.exec (threadSteps () 16 ++ [.modExit])
        Mykthread.mykthread.start).any fun _ => true) = true by decide +kernel)
    have halive := (h _ c hrun).alive false
    exact absurd (halive (by decide +kernel)) Bool.false_ne_true
  · intro h
    obtain ⟨c, hrun, -⟩ := Option.any_eq_true _ _ |>.mp
      (show ((Mysemaphore.mysemaphore.system.exec (threadSteps .threadId1 20 ++ [.modExit])
        Mysemaphore.mysemaphore.start).any fun _ => true) = true by decide +kernel)
    have halive := (h _ c hrun).1.alive false
    exact absurd (halive (by decide +kernel)) Bool.false_ne_true

end CAdvanced
