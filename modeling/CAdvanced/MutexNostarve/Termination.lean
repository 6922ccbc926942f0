import CAdvanced.Interleave.ForkJoin
import CAdvanced.MutexNostarve.Progress

/-!
# MutexNostarve — Termination

Every path through `worker` takes the same number of steps, whichever of the two
branches of `ns_mutex_acquire` and `ns_mutex_release` it goes through: 21 a round, and
one more to leave the loop. So all complete runs are equally long, however often
threads had to wait; and at their end the lock is as `ns_mutex_init` has left it. `main`
creates and joins the workers, and prints `critical` when they are all back: the number
of all rounds, as long as an `int` can hold it.
-/

namespace CAdvanced.MutexNostarve

open Interleave System

/-- The steps to the end of the round, from within `ns_mutex_acquire`. -/
def Acquire.steps : Acquire → Nat
  | .waitMutex => 20
  | .loadWarteraum1 => 19
  | .storeWarteraum1 _ => 18
  | .postMutex => 17
  | .waitDrehkreuz1 => 16
  | .loadWarteraum2 => 15
  | .storeWarteraum2 _ => 14
  | .waitMutexAgain => 13
  | .loadWarteraum1Dec => 12
  | .storeWarteraum1Dec _ => 11
  | .testWarteraum1 => 10
  | .postMutexEmpty | .postMutexBusy => 9
  | .postDrehkreuz2 | .postDrehkreuz1 => 8
  | .waitDrehkreuz2 => 7
  | .loadWarteraum2Dec => 6
  | .storeWarteraum2Dec _ => 5

/-- The same, from within `ns_mutex_release`. -/
def Release.steps : Release → Nat
  | .testWarteraum2 => 2
  | .postDrehkreuz1 | .postDrehkreuz2 => 1

/-- The steps to the end of the worker. -/
def Worker.steps : Worker → Nat
  | ⟨.idle, n⟩ => 21 * n + 1
  | ⟨.acquire p, n⟩ => 21 * n + 1 + p.steps
  | ⟨.loadCritical, n⟩ => 21 * n + 1 + 4
  | ⟨.storeCritical _, n⟩ => 21 * n + 1 + 3
  | ⟨.release p, n⟩ => 21 * n + 1 + p.steps
  | ⟨.finished, _⟩ => 0

theorem nsMutexAcquire_steps {m m' : NsMutex} {p : Acquire} {n : Ctl Acquire}
    (h : nsMutexAcquire m p = some (m', n)) : n.resume Acquire.steps 4 + 1 = p.steps := by
  cases p with
  | waitMutex | waitDrehkreuz1 | waitMutexAgain | waitDrehkreuz2 =>
      simp only [nsMutexAcquire, Option.map_eq_some_iff, Prod.mk.injEq] at h
      obtain ⟨s, -, -, rfl⟩ := h
      rfl
  | testWarteraum1 =>
      simp only [nsMutexAcquire, Option.some.injEq, Prod.mk.injEq] at h
      obtain ⟨-, rfl⟩ := h
      split <;> rfl
  | _ => cases h; rfl

theorem nsMutexRelease_steps {m m' : NsMutex} {p : Release} {n : Ctl Release}
    (h : nsMutexRelease m p = some (m', n)) : n.resume Release.steps 0 + 1 = p.steps := by
  cases p with
  | testWarteraum2 =>
      simp only [nsMutexRelease, Option.some.injEq, Prod.mk.injEq] at h
      obtain ⟨-, rfl⟩ := h
      split <;> rfl
  | _ => cases h; rfl

theorem worker_steps {s s' : Shared} {w w' : Worker} (h : worker s w = some (s', w')) :
    w'.steps + 1 = w.steps := by
  obtain ⟨pc, n⟩ := w
  cases pc with
  | idle => cases n <;> cases h <;> simp [Worker.steps, Acquire.steps, Nat.mul_succ]
  | acquire p =>
      simp only [worker, Option.map_eq_some_iff, Prod.mk.injEq, Prod.exists] at h
      obtain ⟨m, k, hk, -, rfl⟩ := h
      have hsteps := nsMutexAcquire_steps hk
      cases k with
      | goto q =>
          simp only [Worker.steps, Ctl.resume_goto] at hsteps ⊢
          omega
      | ret =>
          simp only [Worker.steps, Ctl.resume_ret] at hsteps ⊢
          omega
  | release p =>
      simp only [worker, Option.map_eq_some_iff, Prod.mk.injEq, Prod.exists] at h
      obtain ⟨m, k, hk, -, rfl⟩ := h
      have hsteps := nsMutexRelease_steps hk
      cases k with
      | goto q =>
          simp only [Worker.steps, Ctl.resume_goto] at hsteps ⊢
          omega
      | ret =>
          simp only [Worker.steps, Ctl.resume_ret] at hsteps ⊢
          omega
  | loadCritical | storeCritical r => cases h; simp [Worker.steps, Release.steps]
  | finished => cases h

variable {ι : Type} [Fintype ι] {rounds : ι → Nat}

/-- Nobody who is done counts anywhere. -/
theorem Worker.of_finished {w : Worker} (h : w.pc = .finished) :
    w.inMutex = 0 ∧ w.hasToken = 0 ∧ w.inWarteraum1 = 0 ∧ w.inWarteraum2 = 0 ∧ w.todo = 0
      ∧ w.steps = 0 := by
  obtain ⟨pc, n⟩ := w
  cases h
  simp [Worker.steps]

/-- When all are done the lock is as it was at first, and no round is missing. -/
theorem Inv.shared_of_finished {c : Conf ι Shared Worker} (hI : Inv rounds c) (hD : Doors c)
    (hall : ∀ i, (c.threads i).pc = .finished) :
    c.shared = ⟨nsMutexInit, CInt.signed 32 (∑ i, rounds i : Nat)⟩ := by
  have hmutex := hI.mutex
  have htoken := hI.token
  have hroom1 := hI.room1
  have hroom2 := hI.room2
  have hcritical := hI.critical
  rw [total_eq_zero fun i => (Worker.of_finished (hall i)).1] at hmutex
  rw [total_eq_zero fun i => (Worker.of_finished (hall i)).2.1] at htoken
  rw [total_eq_zero fun i => (Worker.of_finished (hall i)).2.2.1] at hroom1
  rw [total_eq_zero fun i => (Worker.of_finished (hall i)).2.2.2.1] at hroom2
  rw [total_eq_zero fun i => (Worker.of_finished (hall i)).2.2.2.2.1] at hcritical
  -- nobody is in the second waiting room, so the second turnstile is shut
  have hshut : c.shared.mutex.drehkreuz2 = 0 := by
    by_contra hopen
    have := hD.door2 (Nat.pos_of_ne_zero hopen)
    omega
  have hlock : c.shared.mutex = nsMutexInit := by
    obtain ⟨⟨⟨w1, w2, m, d1, d2⟩, critical⟩, ts⟩ := c
    simp_all [nsMutexInit]
  rw [Nat.cast_zero, Int.sub_zero] at hcritical
  rw [← hlock, ← hcritical]

variable [DecidableEq ι]

/-- **The workers end**, whatever the scheduler does, and always after the same number of
steps; then no round is missing, and the lock is exactly as `ns_mutex_init` has set it up. -/
theorem workers_end (rounds : ι → Nat) :
    (program rounds).EndsWithin (∑ i, (21 * rounds i + 1)) fun ls c =>
      ls.length = ∑ i, (21 * rounds i + 1)
        ∧ c.shared = ⟨nsMutexInit, CInt.signed 32 (∑ i, rounds i : Nat)⟩
        ∧ ∀ i, (c.threads i).pc = .finished := by
  have hlength : ∀ {ls : List ι} {c}, (program rounds).Reaches ls c →
      ls.length + total Worker.steps c.threads = ∑ i, (21 * rounds i + 1) := fun hrun =>
    threads_length_eq (fun _ _ => rfl) inv_inductive (fun _ hstep => worker_steps hstep) hrun
  constructor
  · intro ls c hrun
    have := hlength hrun
    omega
  · intro ls c hrun hstuck
    obtain ⟨hI, hD⟩ := doors_inductive.reachable hrun.reachable
    have hall : ∀ i, (c.threads i).pc = .finished := by
      intro i
      by_contra hi
      exact hstuck (hD.canMove hI hi)
    refine ⟨?_, hI.shared_of_finished hD hall, hall⟩
    have hnone := total_eq_zero fun i => (Worker.of_finished (hall i)).2.2.2.2.2
    have := hlength hrun
    omega

/-! ## `main` -/

/-- What `main` does when it has joined the workers; what it printed as the counter stays
with it. -/
inductive Tail where
  | loadCritical
  | printCounter (r : Int)
  | printEnd (counter : Int)
  | finished (counter : Int)

/-- The end of `main`, one step. -/
def tail (s : Shared) : Tail → Option (Shared × Tail)
  | .loadCritical => some (s, .printCounter s.critical)
  | .printCounter r => some (s, .printEnd r)
  | .printEnd counter => some (s, .finished counter)
  | .finished _ => none

/-- `main`, whose worker `i` goes `rounds i` times through the lock (in the source once). -/
def main {n : Nat} (rounds : Fin n → Nat) : Family (Fin n) Shared Worker (Fin n) Tail n where
  children := program rounds
  tid := id
  order := Equiv.refl _
  returned w := decide (w.pc = .finished)
  tail := tail
  start := .loadCritical

theorem main_proper {n : Nat} (rounds : Fin n → Nat) :
    (main rounds).Proper fun _ => worker where
  code _ _ := rfl
  ends _ s w hw := by
    obtain ⟨pc, k⟩ := w
    cases of_decide_eq_true hw
    rfl

/-- **The lock wears out nobody**: whatever the scheduler does, `main` comes to its end, and
always after the same number of steps: 21 for each round of each worker and one more for each
worker, and 4 for each worker and 5 for `main` itself. Then all workers have finished, the
lock is exactly as `ns_mutex_init` has set it up, and what `main` printed as the counter is
`critical`: the number of all rounds as an `int`, so that number itself up to `INT_MAX`. -/
theorem mutex_nostarve_ends {n : Nat} (rounds : Fin n → Nat) :
    (main rounds).system.EndsWithin (∑ i, (21 * rounds i + 1) + (4 * n + 5)) fun ls s =>
      ls.length = ∑ i, (21 * rounds i + 1) + (4 * n + 5)
        ∧ s.parent = .tail (.finished s.conf.shared.critical)
        ∧ s.conf.shared = ⟨nsMutexInit, CInt.signed 32 (∑ i, rounds i : Nat)⟩
        ∧ (((∑ i, rounds i : Nat) : Int) ≤ CInt.intMax →
          s.conf.shared.critical = (∑ i, rounds i : Nat))
        ∧ ∀ i, (s.conf.threads i).pc = .finished := by
  have hends := Family.endsWithin (K := 3)
    (Q := fun c ls x => ls.length = 3 ∧ x = (c.shared, .finished c.shared.critical))
    (main_proper rounds) (workers_end rounds)
    (fun hP i => decide_eq_true (hP.2.2 i)) (fun _ => endsWithin_alone rfl rfl)
  constructor
  · intro ls s hrun
    have := hends.length_le hrun
    omega
  · intro ls s hrun hstuck
    obtain ⟨ls₀, c₀, ls₁, m, hp, hthreads, ⟨hlen₀, hshared, hall⟩, ⟨hlen₁, htail⟩, hlen⟩ :=
      hends.ended hrun hstuck
    obtain ⟨hs, rfl⟩ := Prod.mk.inj htail
    have hend := hs.trans hshared
    refine ⟨by omega, by rw [hp, hs], hend, fun hle => ?_, fun i => hthreads ▸ hall i⟩
    have hfits := (CInt.signed_eq_self_iff (Int.natCast_nonneg _)).mpr hle
    rw [hend, hfits]

end CAdvanced.MutexNostarve
