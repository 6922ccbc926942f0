import CAdvanced.Interleave.ForkJoin
import CAdvanced.ReaderWriterMain.Model
import Mathlib.Logic.Equiv.Fin.Basic

/-!
# ReaderWriterMain — Termination

`reader` and `writer` make `loops` rounds each, so the program ends under every
schedule as soon as each of the four lock operations does. `LockMeasure` is what a
lock has to give for that: for each operation a number of steps that every step of it
brings down. `parent` is `main` with its own steps: it creates the readers and then the
writers, joins them in the same order, and prints `value`.
-/

namespace CAdvanced.ReaderWriterMain

open Interleave System

/-- Every step of the operation `f` brings `w` down, to zero when it returns at the
latest. -/
def Shrinks {L P : Type} (f : L → P → Option (L × Ctl P)) (w : P → Nat) : Prop :=
  ∀ {l l' : L} {p : P} {n : Ctl P}, f l p = some (l', n) → n.resume w 0 < w p

/-- How many steps the operations of a lock have left, at most. -/
structure LockMeasure {L A R B W : Type} (k : LockCode L A R B W) where
  acqR : A → Nat
  relR : R → Nat
  acqW : B → Nat
  relW : W → Nat
  stepAcqR : Shrinks k.acquireRead acqR
  stepRelR : Shrinks k.releaseRead relR
  stepAcqW : Shrinks k.acquireWrite acqW
  stepRelW : Shrinks k.releaseWrite relW

namespace LockMeasure

variable {L A R B W : Type} {k : LockCode L A R B W} (m : LockMeasure k) (loops : Nat)

/-- The steps of one round of `reader`: the loop head, the two lock operations, and
loading and printing `value`. -/
def readerRound : Nat := 3 + m.acqR k.acquireReadStart + m.relR k.releaseReadStart

/-- The steps of one round of `writer`: as above, and the load and store of `value++`. -/
def writerRound : Nat := 5 + m.acqW k.acquireWriteStart + m.relW k.releaseWriteStart

/-- The steps to the end of `reader`, at most. -/
def reader : Reader A R → Nat
  | ⟨.loop, i⟩ => m.readerRound * (loops - i) + 1
  | ⟨.acquire p, i⟩ =>
      m.readerRound * (loops - (i + 1)) + 1 + m.relR k.releaseReadStart + 2 + m.acqR p
  | ⟨.loadValue, i⟩ => m.readerRound * (loops - (i + 1)) + 1 + m.relR k.releaseReadStart + 2
  | ⟨.printValue _, i⟩ =>
      m.readerRound * (loops - (i + 1)) + 1 + m.relR k.releaseReadStart + 1
  | ⟨.release p, i⟩ => m.readerRound * (loops - (i + 1)) + 1 + m.relR p
  | ⟨.finished, _⟩ => 0

/-- The steps to the end of `writer`, at most. -/
def writer : Writer B W → Nat
  | ⟨.loop, i⟩ => m.writerRound * (loops - i) + 1
  | ⟨.acquire p, i⟩ =>
      m.writerRound * (loops - (i + 1)) + 1 + m.relW k.releaseWriteStart + 4 + m.acqW p
  | ⟨.loadValue, i⟩ => m.writerRound * (loops - (i + 1)) + 1 + m.relW k.releaseWriteStart + 4
  | ⟨.storeValue _, i⟩ =>
      m.writerRound * (loops - (i + 1)) + 1 + m.relW k.releaseWriteStart + 3
  | ⟨.loadPrinted, i⟩ =>
      m.writerRound * (loops - (i + 1)) + 1 + m.relW k.releaseWriteStart + 2
  | ⟨.printValue _, i⟩ =>
      m.writerRound * (loops - (i + 1)) + 1 + m.relW k.releaseWriteStart + 1
  | ⟨.release p, i⟩ => m.writerRound * (loops - (i + 1)) + 1 + m.relW p
  | ⟨.finished, _⟩ => 0

def thread : Thread A R B W → Nat
  | .reader r => m.reader loops r
  | .writer w => m.writer loops w

/-- A round that is begun is one of those that are left. -/
theorem round_of_lt {loops i : Nat} (n : Nat) (h : i < loops) :
    n * (loops - i) = n * (loops - (i + 1)) + n := by
  rw [show loops - i = loops - (i + 1) + 1 by omega, Nat.mul_succ]

theorem reader_lt {s s' : Shared L} {r r' : Reader A R}
    (h : ReaderWriterMain.reader k loops s r = some (s', r')) :
    m.reader loops r' < m.reader loops r := by
  obtain ⟨pc, i⟩ := r
  cases pc with
  | loop =>
      simp only [ReaderWriterMain.reader, Option.some.injEq, Prod.mk.injEq] at h
      obtain ⟨-, rfl⟩ := h
      by_cases hi : i < loops
      · simp only [if_pos hi, reader, round_of_lt _ hi, readerRound]
        omega
      · simp [if_neg hi, reader]
  | acquire p =>
      simp only [ReaderWriterMain.reader, Option.map_eq_some_iff, Prod.exists,
        Prod.mk.injEq] at h
      obtain ⟨l', n, hl, -, rfl⟩ := h
      have hless := m.stepAcqR hl
      cases n <;> simp_all [reader]
  | loadValue | printValue v =>
      simp only [ReaderWriterMain.reader, Option.some.injEq, Prod.mk.injEq] at h
      obtain ⟨-, rfl⟩ := h
      simp [reader]
  | release p =>
      simp only [ReaderWriterMain.reader, Option.map_eq_some_iff, Prod.exists,
        Prod.mk.injEq] at h
      obtain ⟨l', n, hl, -, rfl⟩ := h
      have hless := m.stepRelR hl
      cases n <;> simp_all [reader]
  | finished => cases h

theorem writer_lt {s s' : Shared L} {w w' : Writer B W}
    (h : ReaderWriterMain.writer k loops s w = some (s', w')) :
    m.writer loops w' < m.writer loops w := by
  obtain ⟨pc, i⟩ := w
  cases pc with
  | loop =>
      simp only [ReaderWriterMain.writer, Option.some.injEq, Prod.mk.injEq] at h
      obtain ⟨-, rfl⟩ := h
      by_cases hi : i < loops
      · simp only [if_pos hi, writer, round_of_lt _ hi, writerRound]
        omega
      · simp [if_neg hi, writer]
  | acquire p =>
      simp only [ReaderWriterMain.writer, Option.map_eq_some_iff, Prod.exists,
        Prod.mk.injEq] at h
      obtain ⟨l', n, hl, -, rfl⟩ := h
      have hless := m.stepAcqW hl
      cases n <;> simp_all [writer]
  | loadValue | storeValue v | loadPrinted | printValue v =>
      simp only [ReaderWriterMain.writer, Option.some.injEq, Prod.mk.injEq] at h
      obtain ⟨-, rfl⟩ := h
      simp [writer]
  | release p =>
      simp only [ReaderWriterMain.writer, Option.map_eq_some_iff, Prod.exists,
        Prod.mk.injEq] at h
      obtain ⟨l', n, hl, -, rfl⟩ := h
      have hless := m.stepRelW hl
      cases n <;> simp_all [writer]
  | finished => cases h

theorem thread_lt {s s' : Shared L} {t t' : Thread A R B W}
    (h : ReaderWriterMain.thread k loops s t = some (s', t')) :
    m.thread loops t' < m.thread loops t := by
  cases t with
  | reader r =>
      simp only [ReaderWriterMain.thread, Option.map_eq_some_iff, Prod.mk.injEq,
        Prod.exists] at h
      obtain ⟨s', r', hr, -, rfl⟩ := h
      exact m.reader_lt loops hr
  | writer w =>
      simp only [ReaderWriterMain.thread, Option.map_eq_some_iff, Prod.mk.injEq,
        Prod.exists] at h
      obtain ⟨s', w', hw, -, rfl⟩ := h
      exact m.writer_lt loops hw

/-- The steps of the whole program, at most. -/
def bound (numReaders numWriters : Nat) : Nat :=
  numReaders * (m.readerRound * loops + 1) + numWriters * (m.writerRound * loops + 1)

variable {numReaders numWriters : Nat}

theorem total_initial : total (m.thread loops)
    (initial k numReaders numWriters : Conf _ (Shared L) (Thread A R B W)).threads
    = m.bound loops numReaders numWriters := by
  simp [total, initial, bound, thread, reader, writer]

/-- **A lock whose operations end makes a program that ends**: under every schedule
the threads have at most `m.bound` steps between them. -/
theorem length_le {ls : List (Tid numReaders numWriters)}
    {c : Conf (Tid numReaders numWriters) (Shared L) (Thread A R B W)}
    (h : (main k numReaders numWriters loops).Reaches ls c) :
    ls.length ≤ m.bound loops numReaders numWriters := by
  have hle := threads_length_le (w := m.thread loops) (fun _ _ => rfl) inductive_true
    (fun _ hstep => m.thread_lt loops hstep) h
  have hstart : total (m.thread loops) (main k numReaders numWriters loops).init.threads
      = m.bound loops numReaders numWriters := m.total_initial loops
  omega

end LockMeasure

/-! ## The parent -/

section Parent
variable {L A R B W : Type} (k : LockCode L A R B W) (numReaders numWriters loops : Nat)

/-- What `main` does when it has joined its threads; what it printed as the value stays
with it. -/
inductive Tail where
  | loadValue
  | printEnd (v : Int)
  | finished (value : Int)

/-- The end of `main`, one step. -/
def tail (s : Shared L) : Tail → Option (Shared L × Tail)
  | .loadValue => some (s, .printEnd s.value)
  | .printEnd v => some (s, .finished v)
  | .finished _ => none

/-- `main`, from `rwlock_init` on. Its two loops over the readers and over the writers are
one loop over both. -/
def parent : Family (Tid numReaders numWriters) (Shared L) (Thread A R B W)
    (Tid numReaders numWriters) Tail (numReaders + numWriters) where
  children := main k numReaders numWriters loops
  tid := id
  order := finSumFinEquiv.symm
  returned := Thread.isFinished
  tail := tail
  start := .loadValue

theorem thread_of_isFinished (s : Shared L) {t : Thread A R B W} (h : t.isFinished = true) :
    thread k loops s t = none := by
  cases t with
  | reader r =>
      obtain ⟨pc, i⟩ := r
      cases pc with
      | finished => rfl
      | _ => cases h
  | writer w =>
      obtain ⟨pc, i⟩ := w
      cases pc with
      | finished => rfl
      | _ => cases h

theorem parent_proper : (parent k numReaders numWriters loops).Proper fun _ => thread k loops where
  code _ _ := rfl
  ends _ s _ ht := thread_of_isFinished k loops s ht

variable {k} {numReaders numWriters loops}

/-- **The parent ends** when its threads do, and prints the value that they have left. -/
theorem parent_ends {n : Nat} {lock : L} {value : Int}
    (h : (main k numReaders numWriters loops).EndsWithin n fun _ c =>
      c.shared = ⟨lock, value⟩ ∧ ∀ i, (c.threads i).isFinished) :
    (parent k numReaders numWriters loops).system.EndsWithin
      (n + (4 * (numReaders + numWriters) + 4)) fun _ t =>
        t.parent = .tail (.finished value) ∧ t.conf.shared = ⟨lock, value⟩
          ∧ ∀ i, (t.conf.threads i).isFinished := by
  have hends := Family.endsWithin (K := 2)
    (Q := fun c ls x => ls.length = 2 ∧ x = (c.shared, .finished c.shared.value))
    (parent_proper k numReaders numWriters loops) h (fun hP => hP.2)
    (fun _ => endsWithin_alone rfl rfl)
  constructor
  · intro ls t hrun
    have := hends.length_le hrun
    omega
  · intro ls t hrun hstuck
    obtain ⟨ls₀, c₀, ls₁, m, hp, hthreads, ⟨hshared, hall⟩, ⟨-, htail⟩, -⟩ :=
      hends.ended hrun hstuck
    obtain ⟨hs, rfl⟩ := Prod.mk.inj htail
    refine ⟨?_, hs.trans hshared, fun i => hthreads ▸ hall i⟩
    rw [hp, hshared]

end Parent

end CAdvanced.ReaderWriterMain
