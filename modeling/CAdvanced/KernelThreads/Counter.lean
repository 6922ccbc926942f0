import CAdvanced.Interleave.Tickets
import CAdvanced.KernelThreads.Unload
import Mathlib.Algebra.BigOperators.Ring.Finset

/-!
# KernelThreads — Counter

What `mysemaphore.c` prints of `global_counter`: the threads the numbers from 1 on, and `ModExit`,
behind its calls, the last of them (`counter_prints`). The books are those of the rounds: each of
the four is still to come, or has counted, or is one that a signal has cut off.

`global_counter++` is a load and a store. Other threads move between the two, but none that could
get at the counter: so the module does what it does with an increment in one piece
(`loadStore_refines`), for which the books are kept.
-/

namespace CAdvanced.Mysemaphore

open Interleave KernelModule

/-! ## The books of the rounds -/

/-- The rounds of a thread that have not counted yet: this one, and those behind it. -/
def Pc.roundsLeft : Pc → Nat
  | .allowSignal => 2
  | .loop i => 2 - i
  | .mutexLock i | .lockSignal i | .increment i => 1 + (1 - i)
  | .printCounter i | .mutexUnlock i | .waitEvent i | .asleep i | .wokeUp i _ => 1 - i
  | .printInterrupted => 0

/-- Between the increment and its `printk`. -/
def Pc.unprinted : Pc → Nat
  | .printCounter _ => 1
  | _ => 0

/-- A number for each point of the code, and none behind it. -/
def inCodeWeight (w : Pc → Nat) (t : Kthread Pc) : Nat :=
  match t.phase with
  | .code p => w p
  | _ => 0

/-- The number that a step prints. -/
def printed (s : Shared) (_ : Sigterm) : Pc → Option Int
  | .printCounter _ => some s.globalCounter
  | _ => none

/-- The rounds that a signal takes away, in a try for the mutex or in the wait. -/
def lost (_ : Shared) (sigterm : Sigterm) : Pc → Option Nat
  | .lockSignal i => if sigterm = .pending then some (1 + (1 - i)) else none
  | .wokeUp i true => some (1 - i)
  | _ => none

/-- **One step of the code**: a round that has been to come counts or is lost, and a number that
has been counted and not printed is printed. -/
theorem threadCode_books {j : ThreadId} {timedOut : Bool} {s s' : Shared} {g g' : Sigterm} {p : Pc}
    {q : Option Pc} (h : threadCode j timedOut s g p = some (s', g', q)) :
    s'.globalCounter + q.elim 0 Pc.roundsLeft + (lost s g p).getD 0
        = s.globalCounter + p.roundsLeft
      ∧ s'.globalCounter + p.unprinted
        = s.globalCounter + q.elim 0 Pc.unprinted + (printed s g p).isSome.toNat := by
  cases p with
  | loop i =>
      cases h
      by_cases hi : i < 2
      · have hround : 1 + (1 - i) = 2 - i := by omega
        simp [hi, hround, Pc.roundsLeft, Pc.unprinted, lost, printed]
      · have hnone : 2 - i = 0 := by omega
        simp [hi, hnone, Pc.roundsLeft, Pc.unprinted, lost, printed]
  | mutexLock i =>
      simp only [threadCode] at h
      split at h <;> cases h <;> simp [Pc.roundsLeft, Pc.unprinted, lost, printed]
  | lockSignal i | waitEvent i =>
      cases h
      cases g <;> simp [Pc.roundsLeft, Pc.unprinted, lost, printed]
  | increment i =>
      cases h
      simp [Pc.roundsLeft, Pc.unprinted, lost, printed]
      omega
  | asleep i =>
      simp only [threadCode] at h
      split_ifs at h <;> cases h <;> simp [Pc.roundsLeft, Pc.unprinted, lost, printed]
  | wokeUp i interrupted =>
      cases h
      have hnext : 2 - (i + 1) = 1 - i := by omega
      cases interrupted <;> simp [hnext, Pc.roundsLeft, Pc.unprinted, lost, printed]
  | printCounter i | mutexUnlock i | printInterrupted | allowSignal =>
      cases h
      simp [Pc.roundsLeft, Pc.unprinted, lost, printed]

theorem inCodeWeight_of_out {w : Pc → Nat} {t : Kthread Pc} (h : t.inCode = false) :
    inCodeWeight w t = 0 := by
  obtain ⟨phase, g⟩ := t
  cases phase with
  | code p => cases h
  | complete | doExit | ended => rfl

section Plain
variable {a a' : State ThreadId Shared Pc} {e : ModuleEvent ThreadId}

/-- The weights of all threads. -/
def weights (w : Pc → Nat) (a : State ThreadId Shared Pc) : Nat := total (inCodeWeight w) a.threads

/-- The books over a step: a round that has been to come counts or is lost, and a number that has
been counted is still to print or is printed. -/
structure StepBooks (e : ModuleEvent ThreadId) (a a' : State ThreadId Shared Pc) : Prop where
  rounds : a'.shared.data.globalCounter + weights Pc.roundsLeft a' + (shows lost e a).getD 0
    = a.shared.data.globalCounter + weights Pc.roundsLeft a
  prints : a'.shared.data.globalCounter + weights Pc.unprinted a
    = a.shared.data.globalCounter + weights Pc.unprinted a' + (shows printed e a).isSome.toNat

/-- A step that leaves the code of all threads where it is. -/
theorem StepBooks.of_phase (hphase : ∀ j, (a'.threads j).phase = (a.threads j).phase)
    (hdata : a'.shared.data = a.shared.data) (hlost : shows lost e a = none)
    (hprinted : shows printed e a = none) : StepBooks e a a' := by
  have hsame : ∀ w, weights w a' = weights w a := by
    intro w
    refine total_congr_of_threads ?_
    intro j
    rw [inCodeWeight, inCodeWeight, hphase j]
  constructor
  · rw [hsame, hdata, hlost, Option.getD_none, Nat.cast_zero, Int.add_zero]
  · rw [hsame, hdata, hprinted, Option.isSome_none, Bool.toNat_false, Nat.cast_zero, Int.add_zero]

theorem stepBooks (h : mysemaphore.next e a = some a') : StepBooks e a a' := by
  cases e with
  | sigterm i =>
      obtain ⟨hmem, hphase⟩ := signal_spec h
      exact .of_phase hphase (congrArg ModuleMem.data hmem) rfl rfl
  | modExit =>
      obtain ⟨hphase, hdata, -⟩ := modExit_spec h
      exact .of_phase hphase hdata rfl rfl
  | thread i b =>
      have hmoves : ∀ w, weights w a' + inCodeWeight w (a.threads i)
          = weights w a + inCodeWeight w (a'.threads i) := fun w => Conf.total_step _ h
      have hleft := hmoves Pc.roundsLeft
      have hunprinted := hmoves Pc.unprinted
      rcases thread_cases (Conf.step_mover h) with
        ⟨p, ⟨s, g, q⟩, hphase, hr, hdata, hmover⟩ | ⟨hdata, hout, hout'⟩
      · obtain ⟨hrounds, hprints⟩ := threadCode_books hr
        have hs : a'.shared.data = s := hdata
        have hnow : ∀ w, inCodeWeight w (a.threads i) = w p := by
          intro w
          simp only [inCodeWeight, hphase]
        have hthen : ∀ w, inCodeWeight w (a'.threads i) = q.elim 0 w := by
          intro w
          rw [hmover]
          cases q <;> rfl
        rw [hnow, hthen] at hleft hunprinted
        constructor
        · rw [shows_of_phase hphase, hs]
          omega
        · rw [shows_of_phase hphase, hs]
          omega
      · rw [inCodeWeight_of_out hout, inCodeWeight_of_out hout'] at hleft hunprinted
        constructor
        · rw [shows_of_out hout, hdata, Option.getD_none]
          omega
        · rw [shows_of_out hout, hdata, Option.isSome_none, Bool.toNat_false]
          omega

theorem printed_spec {x : Int} (h : shows printed e a = some x) :
    ∃ j i, (a.threads j).phase = .code (.printCounter i) ∧ x = a.shared.data.globalCounter := by
  cases e with
  | sigterm j => cases h
  | modExit => cases h
  | thread j b =>
      cases hphase : (a.threads j).phase with
      | code p =>
          rw [shows_of_phase hphase] at h
          cases p with
          | printCounter i =>
              cases h
              exact ⟨j, i, hphase, rfl⟩
          | _ => cases h
      | complete | doExit | ended =>
          rw [shows_of_out (by rw [Kthread.inCode, hphase])] at h
          cases h

/-- Whoever is about to print is the only one. -/
theorem unprinted_eq_one (ha : Holder a) {j : ThreadId} {i : Nat}
    (hj : (a.threads j).phase = .code (.printCounter i)) : weights Pc.unprinted a = 1 := by
  have hinside : ∀ k, inCodeWeight Pc.unprinted (a.threads k) ≠ 0 →
      a.shared.data.listMutex = some k := by
    intro k hk
    refine (ha k).mp ?_
    cases hphase : (a.threads k).phase with
    | code p =>
        simp only [inCodeWeight, hphase] at hk
        simp only [holds, hphase]
        cases p with
        | printCounter => rfl
        | _ => exact absurd rfl hk
    | complete | doExit | ended =>
        simp only [inCodeWeight, hphase] at hk
        exact absurd rfl hk
  have hone : inCodeWeight Pc.unprinted (a.threads j) = 1 := by
    simp only [inCodeWeight, hj, Pc.unprinted]
  refine (total_eq_single ?_).trans hone
  intro k hk
  by_contra hne
  have hheld := (hinside k hne).symm.trans (hinside j (by rw [hone]; exact Nat.one_ne_zero))
  exact hk (Option.some.inj hheld)

/-- What a step prints is the number that has been counted and not printed. -/
theorem printed_step (ha : Holder a) (h : mysemaphore.next e a = some a') :
    shows printed e a = none
        ∧ a'.shared.data.globalCounter - weights Pc.unprinted a'
          = a.shared.data.globalCounter - weights Pc.unprinted a
      ∨ shows printed e a = some (a.shared.data.globalCounter - weights Pc.unprinted a + 1)
        ∧ a'.shared.data.globalCounter - weights Pc.unprinted a'
          = a.shared.data.globalCounter - weights Pc.unprinted a + 1 := by
  have hprints := (stepBooks h).prints
  cases hshow : shows printed e a with
  | none =>
      rw [hshow, Option.isSome_none, Bool.toNat_false] at hprints
      exact .inl ⟨rfl, by omega⟩
  | some x =>
      rw [hshow, Option.isSome_some, Bool.toNat_true] at hprints
      obtain ⟨j, i, hphase, rfl⟩ := printed_spec hshow
      rw [unprinted_eq_one ha hphase] at hprints ⊢
      refine .inr ⟨congrArg some (by omega), by omega⟩

/-- What a step loses is taken from the rounds that count or are to come. -/
theorem lost_step (h : mysemaphore.next e a = some a') :
    -(a'.shared.data.globalCounter + (weights Pc.roundsLeft a' : Int))
      = -(a.shared.data.globalCounter + (weights Pc.roundsLeft a : Int))
        + ((shows lost e a).map Nat.cast).getD 0 := by
  have hstep := (stepBooks h).rounds
  cases hlost : shows lost e a with
  | none =>
      rw [hlost] at hstep
      simp only [Option.map_none, Option.getD_none] at hstep ⊢
      omega
  | some k =>
      rw [hlost] at hstep
      simp only [Option.map_some, Option.getD_some] at hstep ⊢
      omega

/-- **The books of a run**: what is printed are the numbers from 1 on, as many as have been
counted, up to one that is still to print; and all four rounds have counted, are lost or are to
come. -/
theorem plain_books {ls : List (ModuleEvent ThreadId)} (h : mysemaphore.system.Reaches ls a) :
    let prints := mysemaphore.system.trace (shows printed) ls mysemaphore.start
    prints = List.iterate (· + 1) 1 prints.length
      ∧ a.shared.data.globalCounter = prints.length + weights Pc.unprinted a
      ∧ a.shared.data.globalCounter + weights Pc.roundsLeft a
        + (mysemaphore.system.trace (shows lost) ls mysemaphore.start).sum = 4 := by
  have hzero : mysemaphore.start.shared.data.globalCounter
      - (weights Pc.unprinted mysemaphore.start : Int) = 0 := by decide
  obtain ⟨hprints, hvalue⟩ := System.trace_iterate (f := (· + 1)) holder_inductive printed_step
    holder_inductive.init h
  have hrounds := System.exec_sum System.inductive_true (fun _ => lost_step) trivial h
  have hinit : mysemaphore.system.init = mysemaphore.start := rfl
  rw [hinit] at hprints hvalue hrounds
  rw [hzero] at hprints hvalue
  rw [add_right_iterate_apply, nsmul_one, Int.zero_add] at hvalue
  refine ⟨hprints, by omega, ?_⟩
  rw [← System.trace_map, ← Nat.cast_list_sum] at hrounds
  have hfour : mysemaphore.start.shared.data.globalCounter
    + (weights Pc.roundsLeft mysemaphore.start : Int) = 4 := by decide
  omega

end Plain

/-! ## The increment in two -/

/-- The points of `thread_code`, and the one between the load and the store. -/
inductive LoadStorePc where
  | plain (p : Pc)
  | store (i : Nat) (loaded : Int)
  deriving DecidableEq, Repr

/-- One step of `thread_code`, with the increment in two. -/
def threadCodeLoadStore (j : ThreadId) (timedOut : Bool) (s : Shared) (sigterm : Sigterm) :
    LoadStorePc → Option (Shared × Sigterm × Option LoadStorePc)
  | .plain (.increment i) => some (s, sigterm, some (.store i s.globalCounter))
  | .store i loaded =>
      some ({ s with globalCounter := loaded + 1 }, sigterm, some (.plain (.printCounter i)))
  | .plain p => (threadCode j timedOut s sigterm p).map fun r => (r.1, r.2.1, r.2.2.map .plain)

def mysemaphoreLoadStore : KernelModule ThreadId Shared LoadStorePc where
  data := ⟨none, 0⟩
  entry := .plain .allowSignal
  code := threadCodeLoadStore
  exit := mysemaphore.exit

/-! ## The increment in one piece -/

namespace LoadStorePc

/-- The point where the increment is still to come. -/
def erase : LoadStorePc → Pc
  | .plain p => p
  | .store i _ => .increment i

/-- The load is next. -/
def loads : LoadStorePc → Bool
  | .plain (.increment _) => true
  | _ => false

end LoadStorePc

/-- What a thread has loaded is what the counter still holds. -/
def Loaded (c : State ThreadId Shared LoadStorePc) : Prop :=
  ∀ j i loaded, (c.threads j).phase = .code (.store i loaded) →
    loaded = c.shared.data.globalCounter

variable {c c' : State ThreadId Shared LoadStorePc} {e : ModuleEvent ThreadId}

/-- **A step** with the increment in two: the load, the store, or one of the others. -/
theorem loadStore_cases {j : ThreadId} {b : Bool} {s : Shared} {g : Sigterm} {p : LoadStorePc}
    {r : Shared × Sigterm × Option LoadStorePc} (h : threadCodeLoadStore j b s g p = some r) :
    (∃ i, p = .plain (.increment i) ∧ r = (s, g, some (.store i s.globalCounter)))
    ∨ (∃ i loaded, p = .store i loaded
      ∧ r = ({ s with globalCounter := loaded + 1 }, g, some (.plain (.printCounter i))))
    ∨ ∃ p₀ r₀, p = .plain p₀ ∧ p.loads = false ∧ threadCode j b s g p₀ = some r₀
      ∧ r₀.1.globalCounter = s.globalCounter ∧ r = (r₀.1, r₀.2.1, r₀.2.2.map .plain) := by
  cases p with
  | store i loaded =>
      cases h
      exact .inr (.inl ⟨i, loaded, rfl, rfl⟩)
  | plain p =>
      cases hp : p with
      | increment i =>
          subst hp
          cases h
          exact .inl ⟨i, rfl, rfl⟩
      | mutexLock i =>
          subst hp
          obtain ⟨r₀, hr₀, rfl⟩ := Option.map_eq_some_iff.mp h
          refine .inr (.inr ⟨_, r₀, rfl, rfl, hr₀, ?_, rfl⟩)
          simp only [threadCode] at hr₀
          split at hr₀ <;> cases hr₀ <;> rfl
      | asleep i =>
          subst hp
          obtain ⟨r₀, hr₀, rfl⟩ := Option.map_eq_some_iff.mp h
          refine .inr (.inr ⟨_, r₀, rfl, rfl, hr₀, ?_, rfl⟩)
          simp only [threadCode] at hr₀
          split_ifs at hr₀ <;> cases hr₀ <;> rfl
      | allowSignal | loop i | lockSignal i | printCounter i | mutexUnlock i | waitEvent i
      | wokeUp i interrupted | printInterrupted =>
          subst hp
          cases h
          exact .inr (.inr ⟨_, _, rfl, rfl, rfl, rfl, rfl⟩)

/-- What the threads may rely on: the mutex, and what they have loaded. -/
def Relies (c : State ThreadId Shared LoadStorePc) : Prop :=
  Holder (erase LoadStorePc.erase c) ∧ Loaded c

/-- **Refinement**: a step with the increment in two is a step with the increment in one
piece, or a load. -/
theorem loadStore_refines (hc : Loaded c) (h : mysemaphoreLoadStore.next e c = some c') :
    mysemaphore.system.exec (visible LoadStorePc.loads e c).toList (erase LoadStorePc.erase c)
      = some (erase LoadStorePc.erase c') := by
  refine next_erase ?_ ?_ h
  · intro i b p r hphase hloads hr
    rcases loadStore_cases hr with ⟨k, rfl, rfl⟩ | ⟨k, loaded, rfl, rfl⟩ | ⟨_, _, -, hnot, -⟩
    · exact ⟨rfl, rfl, rfl⟩
    · cases hloads
    · rw [hloads] at hnot
      cases hnot
  · intro i b p r hphase hloads hr
    rcases loadStore_cases hr with
      ⟨k, rfl, rfl⟩ | ⟨k, loaded, rfl, rfl⟩ | ⟨p₀, r₀, rfl, -, hr₀, -, rfl⟩
    · cases hloads
    · rw [hc i k loaded hphase]
      rfl
    · refine hr₀.trans ?_
      obtain ⟨s, g, q⟩ := r₀
      cases q <;> rfl

/-- Whoever is between the load and the store holds the mutex. -/
theorem Relies.mutex (hc : Relies c) {j : ThreadId} {i : Nat} {loaded : Int}
    (hj : (c.threads j).phase = .code (.store i loaded)) :
    c.shared.data.listMutex = some j := by
  refine (hc.1 j).mp ?_
  simp only [holds, erase, Kthread.map, hj, KthreadPhase.map]
  rfl

theorem relies_step (hc : Relies c) (h : mysemaphoreLoadStore.next e c = some c') :
    Relies c' := by
  refine ⟨holder_inductive.exec hc.1 (loadStore_refines hc.2 h), ?_⟩
  have hsame : (∀ j, (c'.threads j).phase = (c.threads j).phase) →
      c'.shared.data = c.shared.data → Loaded c' := by
    intro hphase hdata j i loaded hj
    rw [hphase] at hj
    rw [hdata]
    exact hc.2 j i loaded hj
  cases e with
  | sigterm i =>
      obtain ⟨hmem, hphase⟩ := signal_spec h
      exact hsame hphase (congrArg ModuleMem.data hmem)
  | modExit =>
      obtain ⟨hphase, hdata, -⟩ := modExit_spec h
      exact hsame hphase hdata
  | thread k b =>
      -- nobody else stores between the load and the store of one thread
      have hothers : c'.shared.data.globalCounter = c.shared.data.globalCounter →
          ∀ j, j ≠ k → ∀ i loaded, (c'.threads j).phase = .code (.store i loaded) →
            loaded = c'.shared.data.globalCounter := by
        intro hcounter j hj i loaded hphase
        rw [Conf.step_threads_ne h hj] at hphase
        rw [hcounter]
        exact hc.2 j i loaded hphase
      intro j i loaded hj
      rcases thread_cases (Conf.step_mover h) with
        ⟨p, r, hphase, hr, hdata, hmover⟩ | ⟨hdata, -, hleft⟩
      · rcases loadStore_cases hr with
          ⟨n, rfl, rfl⟩ | ⟨n, x, rfl, rfl⟩ | ⟨p₀, r₀, rfl, -, -, hkeep, rfl⟩
        · by_cases hjk : j = k
          · subst hjk
            rw [hmover] at hj
            cases hj
            rw [hdata]
          · exact hothers (congrArg Shared.globalCounter hdata) j hjk i loaded hj
        · by_cases hjk : j = k
          · subst hjk
            rw [hmover] at hj
            cases hj
          · rw [Conf.step_threads_ne h hjk] at hj
            have hheld := (hc.mutex hphase).symm.trans (hc.mutex hj)
            exact absurd (Option.some.inj hheld).symm hjk
        · by_cases hjk : j = k
          · subst hjk
            rw [hmover] at hj
            obtain ⟨s, g, q⟩ := r₀
            cases q <;> cases hj
          · exact hothers ((congrArg Shared.globalCounter hdata).trans hkeep) j hjk i loaded hj
      · by_cases hjk : j = k
        · subst hjk
          rw [Kthread.inCode, hj] at hleft
          cases hleft
        · exact hothers (congrArg Shared.globalCounter hdata) j hjk i loaded hj

theorem simulation : mysemaphoreLoadStore.system.Simulation mysemaphore.system
    (visible LoadStorePc.loads) fun c a => Relies c ∧ a = erase LoadStorePc.erase c where
  init := by
    refine ⟨⟨holder_inductive.init, ?_⟩, rfl⟩
    intro j i loaded hj
    cases hj
  step := by
    rintro e c c' a ⟨hc, rfl⟩ h
    exact ⟨_, loadStore_refines hc.2 h, relies_step hc h, rfl⟩

/-- What a step of the increment in one piece shows, shown with the increment in two. -/
def LoadStorePc.shown {κ : Type} (f : Shared → Sigterm → Pc → Option κ) (s : Shared)
    (sigterm : Sigterm) : LoadStorePc → Option κ
  | .plain p => f s sigterm p
  | .store _ _ => none

/-- It is the same over a run, if an increment shows nothing. -/
theorem trace_shown {κ : Type} {f : Shared → Sigterm → Pc → Option κ}
    (hf : ∀ s g i, f s g (.increment i) = none) {ls : List (ModuleEvent ThreadId)}
    (h : mysemaphoreLoadStore.system.Reaches ls c) :
    mysemaphoreLoadStore.system.trace (shows (LoadStorePc.shown f)) ls mysemaphoreLoadStore.start
      = mysemaphore.system.trace (shows f)
        (mysemaphoreLoadStore.system.trace (visible LoadStorePc.loads) ls
          mysemaphoreLoadStore.start) mysemaphore.start := by
  refine simulation.trace_eq ?_ simulation.init h
  rintro e c c' a ⟨-, rfl⟩ -
  refine shows_erase ?_ ?_
  · intro s g p hp
    cases p with
    | store i loaded => cases hp
    | plain p =>
        cases p with
        | increment i => exact hf s g i
        | _ => cases hp
  · intro s g p hp
    cases p with
    | store i loaded => exact (hf s g i).symm
    | plain p => rfl

/-! ## What is printed -/

/-- **The counter**: in every run, whatever the order of the steps and wherever signals come, the
threads print the numbers from 1 on; and when `ModExit` has made its calls, the counter, which it
prints next, is the last of them, and the four rounds less those that a signal has cut off. -/
theorem counter_prints {ls : List (ModuleEvent ThreadId)}
    (h : mysemaphoreLoadStore.system.Reaches ls c) :
    ∃ n ≤ 4,
      mysemaphoreLoadStore.system.trace (shows (LoadStorePc.shown printed)) ls
          mysemaphoreLoadStore.start = List.iterate (· + 1) 1 n
        ∧ (c.shared.exit = [] → c.shared.data.globalCounter = n
          ∧ n + (mysemaphoreLoadStore.system.trace (shows (LoadStorePc.shown lost)) ls
            mysemaphoreLoadStore.start).sum = 4) := by
  obtain ⟨a, hrun, -, rfl⟩ := simulation.reaches h
  have hinit : mysemaphoreLoadStore.system.init = mysemaphoreLoadStore.start := rfl
  rw [hinit] at hrun
  obtain ⟨hprints, hcounted, hrounds⟩ := plain_books hrun
  rw [trace_shown (fun _ _ _ => rfl) h, trace_shown (fun _ _ _ => rfl) h]
  refine ⟨_, ?_, hprints, ?_⟩
  · omega
  · intro hexit
    have hnone : ∀ w, weights w (erase LoadStorePc.erase c) = 0 := by
      intro w
      refine total_eq_zero ?_
      intro j
      have hcompleted := completed_of_returned (M := mysemaphore) rfl hrun hexit j
      exact inCodeWeight_of_out (Kthread.not_inCode_of_completed hcompleted)
    rw [hnone] at hcounted hrounds
    have hdata : (erase LoadStorePc.erase c).shared = c.shared := rfl
    rw [hdata] at hcounted hrounds
    omega

/-- The second thread is interrupted in its first wait: three rounds count. -/
theorem counter_prints_three : ∃ ls c, mysemaphoreLoadStore.system.Reaches ls c
    ∧ c.shared.exit = [] ∧ ∃ n ≤ 4,
      mysemaphoreLoadStore.system.trace (shows (LoadStorePc.shown printed)) ls
          mysemaphoreLoadStore.start = List.iterate (· + 1) 1 n
        ∧ (c.shared.exit = [] → c.shared.data.globalCounter = n
          ∧ n + (mysemaphoreLoadStore.system.trace (shows (LoadStorePc.shown lost)) ls
            mysemaphoreLoadStore.start).sum = 4) := by
  let ls : List (ModuleEvent ThreadId) :=
    threadSteps .threadId1 17 ++ threadSteps .threadId2 7 ++ List.replicate 4 .modExit
      ++ threadSteps .threadId1 4 ++ threadSteps .threadId2 4 ++ List.replicate 2 .modExit
  obtain ⟨c, hrun, hexit⟩ := Option.any_eq_true _ _ |>.mp
    (show ((mysemaphoreLoadStore.system.exec ls mysemaphoreLoadStore.start).any
      fun c => decide (c.shared.exit = [])) = true by decide +kernel)
  exact ⟨ls, c, hrun, of_decide_eq_true hexit, counter_prints hrun⟩

end CAdvanced.Mysemaphore
