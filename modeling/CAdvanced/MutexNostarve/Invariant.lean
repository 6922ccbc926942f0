import CAdvanced.MutexNostarve.Model

/-!
# MutexNostarve — Invariant

The token invariant behind the two turnstiles. `mutex` protects
`warteraum1` in the usual way; `warteraum2` and `critical` are protected by
nothing but a TOKEN: exactly one of `drehkreuz1`, `drehkreuz2` and the
threads between a turnstile's wait and the next turnstile's post has it.
Both waiting rooms then count exactly the threads between their increment
and their decrement.

`AcquireSpec` / `ReleaseSpec` / `WorkerSpec` say once what one step can do;
everything after them speaks of weights only.
-/

namespace CAdvanced.MutexNostarve

open Interleave System

/-! ## Regions of the code, as weights -/

/-- Inside a `mutex` section. -/
@[simp] def Acquire.inMutex : Acquire → Nat
  | .loadWarteraum1 | .storeWarteraum1 _ | .postMutex
  | .loadWarteraum1Dec | .storeWarteraum1Dec _ | .testWarteraum1
  | .postMutexEmpty | .postMutexBusy => 1
  | _ => 0

/-- Between the wait on a turnstile and the next post of one. -/
@[simp] def Acquire.hasToken : Acquire → Nat
  | .loadWarteraum2 | .storeWarteraum2 _ | .waitMutexAgain
  | .loadWarteraum1Dec | .storeWarteraum1Dec _ | .testWarteraum1
  | .postMutexEmpty | .postDrehkreuz2 | .postMutexBusy | .postDrehkreuz1
  | .loadWarteraum2Dec | .storeWarteraum2Dec _ => 1
  | _ => 0

/-- Counted by `warteraum1`. -/
@[simp] def Acquire.inWarteraum1 : Acquire → Nat
  | .postMutex | .waitDrehkreuz1 | .loadWarteraum2 | .storeWarteraum2 _
  | .waitMutexAgain | .loadWarteraum1Dec | .storeWarteraum1Dec _ => 1
  | _ => 0

/-- Counted by `warteraum2`. -/
@[simp] def Acquire.inWarteraum2 : Acquire → Nat
  | .waitMutexAgain | .loadWarteraum1Dec | .storeWarteraum1Dec _
  | .testWarteraum1 | .postMutexEmpty | .postDrehkreuz2 | .postMutexBusy
  | .postDrehkreuz1 | .waitDrehkreuz2 | .loadWarteraum2Dec
  | .storeWarteraum2Dec _ => 1
  | _ => 0

/-- The store of `warteraum1 += 1`. -/
@[simp] def Acquire.enters1 : Acquire → Bool
  | .storeWarteraum1 _ => true
  | _ => false

/-- The store of `warteraum1 -= 1`. -/
@[simp] def Acquire.leaves1 : Acquire → Bool
  | .storeWarteraum1Dec _ => true
  | _ => false

/-- The store of `warteraum2 += 1`. -/
@[simp] def Acquire.enters2 : Acquire → Bool
  | .storeWarteraum2 _ => true
  | _ => false

/-- The store of `warteraum2 -= 1`. -/
@[simp] def Acquire.leaves2 : Acquire → Bool
  | .storeWarteraum2Dec _ => true
  | _ => false

/-- A loaded value that is about to be stored back is still current. -/
@[simp] def Acquire.RegOk (m : NsMutex) : Acquire → Prop
  | .storeWarteraum1 r | .storeWarteraum1Dec r => r = m.warteraum1
  | .storeWarteraum2 r | .storeWarteraum2Dec r => r = m.warteraum2
  | _ => True

/-- The release opens `drehkreuz1` only while `warteraum2` is empty, and
`drehkreuz2` only while it is not. -/
@[simp] def Release.RegOk (m : NsMutex) : Release → Prop
  | .testWarteraum2 => True
  | .postDrehkreuz1 => m.warteraum2 = 0
  | .postDrehkreuz2 => m.warteraum2 ≠ 0

/-! ## What one step can do -/

/-- One step of `ns_mutex_acquire` from `p` in `m` to `n` in `m'`. -/
structure AcquireSpec (m m' : NsMutex) (p : Acquire) (n : Ctl Acquire) : Prop where
  mutex : m'.mutex + n.resume Acquire.inMutex 0 = m.mutex + p.inMutex
  token : m'.drehkreuz1 + m'.drehkreuz2 + n.resume Acquire.hasToken 1
    = m.drehkreuz1 + m.drehkreuz2 + p.hasToken
  store1 : p.RegOk m → m'.warteraum1 + p.leaves1.toNat = m.warteraum1 + p.enters1.toNat
  store2 : p.RegOk m → m'.warteraum2 + p.leaves2.toNat = m.warteraum2 + p.enters2.toNat
  room1 : n.resume Acquire.inWarteraum1 0 + p.leaves1.toNat
    = p.inWarteraum1 + p.enters1.toNat
  room2 : n.resume Acquire.inWarteraum2 0 + p.leaves2.toNat
    = p.inWarteraum2 + p.enters2.toNat
  frame1 : p.inMutex = 0 → m'.warteraum1 = m.warteraum1
  frame2 : p.hasToken = 0 → m'.warteraum2 = m.warteraum2
  reg : n.resume (Acquire.RegOk m') True
  returns : n.resume (fun _ => 1) 0 + p.leaves2.toNat = 1

theorem nsMutexAcquire_spec {m m' : NsMutex} {p : Acquire} {n : Ctl Acquire}
    (h : nsMutexAcquire m p = some (m', n)) : AcquireSpec m m' p n := by
  cases p with
  | waitMutex | waitDrehkreuz1 | waitMutexAgain | waitDrehkreuz2 =>
      simp only [nsMutexAcquire, Option.map_eq_some_iff, semWait_eq_some, Prod.mk.injEq] at h
      obtain ⟨s, hs, rfl, rfl⟩ := h
      constructor <;> simp [hs] <;> omega
  | testWarteraum1 =>
      simp only [nsMutexAcquire, Option.some.injEq, Prod.mk.injEq] at h
      obtain ⟨rfl, rfl⟩ := h
      split <;> constructor <;> simp
  | _ =>
      simp only [nsMutexAcquire, Option.some.injEq, Prod.mk.injEq] at h
      obtain ⟨rfl, rfl⟩ := h
      constructor <;> simp [semPost] <;> omega

/-- One step of `ns_mutex_release`: it never leaves the token section before
its post, touches no counter, and opens `drehkreuz1` only on an empty
second waiting room. -/
structure ReleaseSpec (m m' : NsMutex) (n : Ctl Release) : Prop where
  mutex : m'.mutex = m.mutex
  token : m'.drehkreuz1 + m'.drehkreuz2 + n.resume (fun _ => 1) 0
    = m.drehkreuz1 + m.drehkreuz2 + 1
  frame1 : m'.warteraum1 = m.warteraum1
  frame2 : m'.warteraum2 = m.warteraum2
  reg : n.resume (Release.RegOk m') True

theorem nsMutexRelease_spec {m m' : NsMutex} {p : Release} {n : Ctl Release}
    (h : nsMutexRelease m p = some (m', n)) : ReleaseSpec m m' n := by
  cases p with
  | testWarteraum2 =>
      simp only [nsMutexRelease, Option.some.injEq, Prod.mk.injEq] at h
      obtain ⟨rfl, rfl⟩ := h
      split <;> constructor <;> simp_all
  | postDrehkreuz1 | postDrehkreuz2 =>
      simp only [nsMutexRelease, Option.some.injEq, Prod.mk.injEq] at h
      obtain ⟨rfl, rfl⟩ := h
      constructor <;> simp [semPost]
      omega

/-! ## The same weights on workers -/

@[simp] def Worker.inMutex : Worker → Nat
  | ⟨.acquire p, _⟩ => p.inMutex
  | _ => 0

@[simp] def Worker.hasToken : Worker → Nat
  | ⟨.acquire p, _⟩ => p.hasToken
  | ⟨.loadCritical, _⟩ | ⟨.storeCritical _, _⟩ | ⟨.release _, _⟩ => 1
  | _ => 0

@[simp] def Worker.inWarteraum1 : Worker → Nat
  | ⟨.acquire p, _⟩ => p.inWarteraum1
  | _ => 0

@[simp] def Worker.inWarteraum2 : Worker → Nat
  | ⟨.acquire p, _⟩ => p.inWarteraum2
  | _ => 0

/-- Between the end of `ns_mutex_acquire` and the post of
`ns_mutex_release`. -/
@[simp] def Worker.inCritical : Worker → Bool
  | ⟨.loadCritical, _⟩ | ⟨.storeCritical _, _⟩ | ⟨.release _, _⟩ => true
  | _ => false

/-- How many `critical++` the worker has not stored yet. -/
@[simp] def Worker.todo : Worker → Nat
  | ⟨.acquire _, n⟩ | ⟨.loadCritical, n⟩ | ⟨.storeCritical _, n⟩ => n + 1
  | ⟨.idle, n⟩ | ⟨.release _, n⟩ => n
  | ⟨.finished, _⟩ => 0

/-- At the store of `critical++`. -/
@[simp] def Worker.counts : Worker → Bool
  | ⟨.storeCritical _, _⟩ => true
  | _ => false

/-- How many acquisitions the worker has not completed yet. -/
@[simp] def Worker.toAcquire : Worker → Nat
  | ⟨.acquire _, n⟩ => n + 1
  | ⟨.finished, _⟩ => 0
  | ⟨_, n⟩ => n

@[simp] def Worker.enters1 : Worker → Bool
  | ⟨.acquire p, _⟩ => p.enters1
  | _ => false

@[simp] def Worker.leaves1 : Worker → Bool
  | ⟨.acquire p, _⟩ => p.leaves1
  | _ => false

@[simp] def Worker.enters2 : Worker → Bool
  | ⟨.acquire p, _⟩ => p.enters2
  | _ => false

@[simp] def Worker.leaves2 : Worker → Bool
  | ⟨.acquire p, _⟩ => p.leaves2
  | _ => false

@[simp] def Worker.RegOk (s : Shared) : Worker → Prop
  | ⟨.acquire p, _⟩ => p.RegOk s.mutex
  | ⟨.storeCritical r, _⟩ => r = s.critical
  | ⟨.release p, _⟩ => p.RegOk s.mutex
  | _ => True

/-- One step of a worker. -/
structure WorkerSpec (s s' : Shared) (a b : Worker) : Prop where
  mutex : s'.mutex.mutex + b.inMutex = s.mutex.mutex + a.inMutex
  token : s'.mutex.drehkreuz1 + s'.mutex.drehkreuz2 + b.hasToken
    = s.mutex.drehkreuz1 + s.mutex.drehkreuz2 + a.hasToken
  store1 : a.RegOk s → s'.mutex.warteraum1 + a.leaves1.toNat
    = s.mutex.warteraum1 + a.enters1.toNat
  store2 : a.RegOk s → s'.mutex.warteraum2 + a.leaves2.toNat
    = s.mutex.warteraum2 + a.enters2.toNat
  room1 : b.inWarteraum1 + a.leaves1.toNat = a.inWarteraum1 + a.enters1.toNat
  room2 : b.inWarteraum2 + a.leaves2.toNat = a.inWarteraum2 + a.enters2.toNat
  critical : a.RegOk s →
    s'.critical = if a.counts then CInt.signed 32 (s.critical + 1) else s.critical
  rounds : b.todo + a.counts.toNat = a.todo
  acquires : b.toAcquire + a.leaves2.toNat = a.toAcquire
  frame1 : a.inMutex = 0 → s'.mutex.warteraum1 = s.mutex.warteraum1
  frame2 : a.hasToken = 0 → s'.mutex.warteraum2 = s.mutex.warteraum2
    ∧ s'.critical = s.critical
  reg : b.RegOk s'

theorem worker_spec {s s' : Shared} {a b : Worker}
    (h : worker s a = some (s', b)) : WorkerSpec s s' a b := by
  obtain ⟨pc, n⟩ := a
  cases pc with
  | idle =>
      cases n <;> simp only [worker, Option.some.injEq, Prod.mk.injEq] at h <;>
        obtain ⟨rfl, rfl⟩ := h <;> constructor <;> simp
  | acquire p =>
      simp only [worker, Option.map_eq_some_iff, Prod.mk.injEq, Prod.exists] at h
      obtain ⟨m, k, hk, rfl, rfl⟩ := h
      obtain ⟨hm, ht, hs1, hs2, hr1, hr2, hf1, hf2, hreg, hret⟩ := nsMutexAcquire_spec hk
      cases k <;> constructor <;> simp_all
  | loadCritical =>
      simp only [worker, Option.some.injEq, Prod.mk.injEq] at h
      obtain ⟨rfl, rfl⟩ := h
      constructor <;> simp
  | storeCritical r =>
      simp only [worker, Option.some.injEq, Prod.mk.injEq] at h
      obtain ⟨rfl, rfl⟩ := h
      constructor <;> simp_all
  | release p =>
      simp only [worker, Option.map_eq_some_iff, Prod.mk.injEq, Prod.exists] at h
      obtain ⟨m, k, hk, rfl, rfl⟩ := h
      obtain ⟨hm, ht, hf1, hf2, hreg⟩ := nsMutexRelease_spec hk
      cases k <;> constructor <;> simp_all
  | finished => cases h

/-! ## The invariant -/

/-- A register survives the steps of threads that share neither the
worker's `mutex` section nor its token. -/
theorem Worker.RegOk.frame {s s' : Shared} {w : Worker} (h : w.RegOk s)
    (h1 : w.inMutex = 1 → s'.mutex.warteraum1 = s.mutex.warteraum1)
    (h2 : w.hasToken = 1 → s'.mutex.warteraum2 = s.mutex.warteraum2
      ∧ s'.critical = s.critical) : w.RegOk s' := by
  obtain ⟨pc, n⟩ := w
  cases pc with
  | acquire p => cases p <;> simp_all
  | release p => cases p <;> simp_all
  | _ => simp_all

variable {ι : Type} [Fintype ι] {rounds : ι → Nat}

/-- One thread at most inside `mutex`, one token, both waiting rooms exact,
`critical` exact but for the wrap, every register current. -/
structure Inv (rounds : ι → Nat) (c : Conf ι Shared Worker) : Prop where
  mutex : c.shared.mutex.mutex + total Worker.inMutex c.threads = 1
  token : c.shared.mutex.drehkreuz1 + c.shared.mutex.drehkreuz2
    + total Worker.hasToken c.threads = 1
  room1 : c.shared.mutex.warteraum1 = total Worker.inWarteraum1 c.threads
  room2 : c.shared.mutex.warteraum2 = total Worker.inWarteraum2 c.threads
  critical : c.shared.critical
    = CInt.signed 32 ((∑ i, rounds i : Nat) - total Worker.todo c.threads)
  regs : ∀ i, (c.threads i).RegOk c.shared

theorem inv_init : Inv rounds (initial rounds) where
  mutex := by simp [initial, nsMutexInit, total]
  token := by simp [initial, nsMutexInit, total]
  room1 := by simp [initial, nsMutexInit, total]
  room2 := by simp [initial, nsMutexInit, total]
  critical := by simp [initial, total]
  regs := by simp [initial]

variable [DecidableEq ι]

theorem inv_step {i : ι} {c c' : Conf ι Shared Worker} (hI : Inv rounds c)
    (h : (program rounds).next i c = some c') : Inv rounds c' := by
  have hspec := worker_spec (Conf.step_mover h)
  have hown := hI.regs i
  refine ⟨?mutex, ?token, ?room1, ?room2, ?critical, ?regs⟩
  case mutex =>
    exact (Conf.step_total (g := fun s => s.mutex.mutex) h hspec.mutex).trans hI.mutex
  case token =>
    exact (Conf.step_total (g := fun s => s.mutex.drehkreuz1 + s.mutex.drehkreuz2) h
      hspec.token).trans hI.token
  case room1 =>
    have := Conf.total_step Worker.inWarteraum1 h
    have := hspec.room1
    have := hspec.store1 hown
    have := hI.room1
    omega
  case room2 =>
    have := Conf.total_step Worker.inWarteraum2 h
    have := hspec.room2
    have := hspec.store2 hown
    have := hI.room2
    omega
  case critical =>
    have htodo := Conf.total_step Worker.todo h
    have hround := hspec.rounds
    rw [hspec.critical hown, hI.critical, CInt.signed_count]
    congr 1
    omega
  case regs =>
    refine Conf.step_forall (A := fun s w => w.RegOk s) h hspec.reg ?_
    intro j hj
    refine (hI.regs j).frame (fun hm => hspec.frame1 ?_) (fun ht => hspec.frame2 ?_)
    · have := add_le_total Worker.inMutex c.threads hj
      have := hI.mutex
      omega
    · have := add_le_total Worker.hasToken c.threads hj
      have := hI.token
      omega

theorem inv_inductive : (program rounds).Inductive (Inv rounds) :=
  ⟨inv_init, inv_step⟩

/-- Two threads never have the token together. -/
theorem Inv.token_unique {c : Conf ι Shared Worker} (hI : Inv rounds c) {i j : ι}
    (hi : 0 < (c.threads i).hasToken) (hj : 0 < (c.threads j).hasToken) : i = j := by
  by_contra hij
  have := add_le_total Worker.hasToken c.threads hij
  have := hI.token
  omega

theorem Worker.hasToken_of_inCritical {w : Worker} (h : w.inCritical = true) :
    0 < w.hasToken := by
  obtain ⟨pc, n⟩ := w
  cases pc <;> simp_all

/-! ## Mutual exclusion without lost updates -/

/-- The first waiting room, as an account of the run that led here. -/
theorem warteraum1_account {ls : List ι} {c : Conf ι Shared Worker}
    (h : (program rounds).Reaches ls c) :
    c.shared.mutex.warteraum1 + (program rounds).count (movedFrom Worker.leaves1) ls
      = (program rounds).count (movedFrom Worker.enters1) ls :=
  (threads_ledger inv_inductive (g := fun s => s.mutex.warteraum1)
    (fun hI hf => (worker_spec hf).store1 (hI.regs _)) h).trans (zero_add _)

/-- The second waiting room, likewise. -/
theorem warteraum2_account {ls : List ι} {c : Conf ι Shared Worker}
    (h : (program rounds).Reaches ls c) :
    c.shared.mutex.warteraum2 + (program rounds).count (movedFrom Worker.leaves2) ls
      = (program rounds).count (movedFrom Worker.enters2) ls :=
  (threads_ledger inv_inductive (g := fun s => s.mutex.warteraum2)
    (fun hI hf => (worker_spec hf).store2 (hI.regs _)) h).trans (zero_add _)

/-- Every round that is not left to do has been acquired once. -/
theorem acquisitions_account {ls : List ι} {c : Conf ι Shared Worker}
    (h : (program rounds).Reaches ls c) :
    total Worker.toAcquire c.threads + (program rounds).count (movedFrom Worker.leaves2) ls
      = ∑ i, rounds i :=
  threads_drain inv_inductive (fun _ hf => (worker_spec hf).acquires) h

/-- What the lock keeps on the run of `ls` to `c`: no two threads are between the end of
`ns_mutex_acquire` and the post of `ns_mutex_release`; both waiting rooms are non-negative
and hold exactly the increments minus the decrements stored so far; and when every thread
is done, as many acquisitions have been made as the quotas say, and `critical` is their
number as an `int`. -/
structure Exclusion (rounds : ι → Nat) (ls : List ι) (c : Conf ι Shared Worker) : Prop where
  exclusive : ∀ i j, (c.threads i).inCritical → (c.threads j).inCritical → i = j
  room1 : 0 ≤ c.shared.mutex.warteraum1
    ∧ c.shared.mutex.warteraum1 = (program rounds).count (movedFrom Worker.enters1) ls
        - (program rounds).count (movedFrom Worker.leaves1) ls
  room2 : 0 ≤ c.shared.mutex.warteraum2
    ∧ c.shared.mutex.warteraum2 = (program rounds).count (movedFrom Worker.enters2) ls
        - (program rounds).count (movedFrom Worker.leaves2) ls
  ended : (∀ i, (c.threads i).pc = .finished) →
    (program rounds).count (movedFrom Worker.leaves2) ls = ∑ i, rounds i
      ∧ c.shared.critical = CInt.signed 32 (∑ i, rounds i : Nat)

theorem exclusion {ls : List ι} {c : Conf ι Shared Worker}
    (h : (program rounds).Reaches ls c) : Exclusion rounds ls c := by
  have hI : Inv rounds c := inv_inductive.reachable h.reachable
  have h1 := warteraum1_account h
  have h2 := warteraum2_account h
  refine ⟨fun i j hi hj => hI.token_unique (Worker.hasToken_of_inCritical hi)
    (Worker.hasToken_of_inCritical hj), ⟨?_, by omega⟩, ⟨?_, by omega⟩, fun hdone => ?_⟩
  · rw [hI.room1]
    exact Int.natCast_nonneg _
  · rw [hI.room2]
    exact Int.natCast_nonneg _
  · have hfin : ∀ i, c.threads i = ⟨.finished, (c.threads i).left⟩ := fun i => by
      rw [← hdone i]
    have htodo : total Worker.todo c.threads = 0 :=
      total_eq_zero fun i => by rw [hfin i, Worker.todo]
    have hnone : total Worker.toAcquire c.threads = 0 :=
      total_eq_zero fun i => by rw [hfin i, Worker.toAcquire]
    constructor
    · have := acquisitions_account h
      omega
    · rw [hI.critical, htodo, Nat.cast_zero, Int.sub_zero]

end CAdvanced.MutexNostarve
