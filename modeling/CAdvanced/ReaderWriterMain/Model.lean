import CAdvanced.Interleave.Threads
import CAdvanced.Interleave.Sync
import CAdvanced.CInt.Wrap

/-!
# ReaderWriterMain — Model

The part that `reader-writer.c` and `reader-writer-nostarve.c` share word for
word ("don't change the code below (just use it!)"): `reader`, `writer` and
`main`, over the four operations of a readers–writer lock. The two files give
the two `LockCode`s.

One step of a thread is one step of a lock operation or one load or store of
`value`; `value++` is two steps, and the loaded value travels in the program
point. `value` is an `int` and wraps; `readers` never leaves the range of the number
of readers. The global `loops` does not change once the threads run and is a
parameter.
-/

namespace CAdvanced.ReaderWriterMain

open Interleave

/-- The code of a readers–writer lock: for each of its four operations the
first program point and the step. `L` is `rwlock_t`; `A`, `R`, `B`, `W` are
the program points of acquire and release for reading and for writing. -/
structure LockCode (L A R B W : Type) where
  init : L
  acquireRead : L → A → Option (L × Ctl A)
  acquireReadStart : A
  releaseRead : L → R → Option (L × Ctl R)
  releaseReadStart : R
  acquireWrite : L → B → Option (L × Ctl B)
  acquireWriteStart : B
  releaseWrite : L → W → Option (L × Ctl W)
  releaseWriteStart : W

/-- What the threads share: the lock and the global `value`. -/
structure Shared (L : Type) where
  lock : L
  value : Int
  deriving DecidableEq, Repr

/-- The program points of `reader`. -/
inductive ReaderPc (A R : Type) where
  | loop
  | acquire (p : A)
  | loadValue
  | printValue (v : Int)
  | release (p : R)
  | finished
  deriving DecidableEq, Repr

/-- A reader: where it stands, and its loop counter. -/
structure Reader (A R : Type) where
  pc : ReaderPc A R
  i : Nat
  deriving DecidableEq, Repr

/-- The program points of `writer`. -/
inductive WriterPc (B W : Type) where
  | loop
  | acquire (p : B)
  | loadValue
  | storeValue (r : Int)
  | loadPrinted
  | printValue (v : Int)
  | release (p : W)
  | finished
  deriving DecidableEq, Repr

/-- A writer: where it stands, and its loop counter. -/
structure Writer (B W : Type) where
  pc : WriterPc B W
  i : Nat
  deriving DecidableEq, Repr

/-- A thread of the program. -/
inductive Thread (A R B W : Type) where
  | reader (r : Reader A R)
  | writer (w : Writer B W)
  deriving DecidableEq, Repr

section Code
variable {L A R B W : Type} (k : LockCode L A R B W) (loops : Nat)

/-- `reader`, one step. -/
def reader (s : Shared L) : Reader A R → Option (Shared L × Reader A R)
  | ⟨.loop, i⟩ =>
      some (s, ⟨if i < loops then .acquire k.acquireReadStart else .finished, i⟩)
  | ⟨.acquire p, i⟩ => (k.acquireRead s.lock p).map fun r =>
      ({ s with lock := r.1 }, ⟨r.2.resume .acquire .loadValue, i⟩)
  | ⟨.loadValue, i⟩ => some (s, ⟨.printValue s.value, i⟩)
  | ⟨.printValue _, i⟩ => some (s, ⟨.release k.releaseReadStart, i⟩)
  | ⟨.release p, i⟩ => (k.releaseRead s.lock p).map fun r =>
      ({ s with lock := r.1 }, r.2.resume (fun p => ⟨.release p, i⟩) ⟨.loop, i + 1⟩)
  | ⟨.finished, _⟩ => none

/-- `writer`, one step. -/
def writer (s : Shared L) : Writer B W → Option (Shared L × Writer B W)
  | ⟨.loop, i⟩ =>
      some (s, ⟨if i < loops then .acquire k.acquireWriteStart else .finished, i⟩)
  | ⟨.acquire p, i⟩ => (k.acquireWrite s.lock p).map fun r =>
      ({ s with lock := r.1 }, ⟨r.2.resume .acquire .loadValue, i⟩)
  | ⟨.loadValue, i⟩ => some (s, ⟨.storeValue s.value, i⟩)
  | ⟨.storeValue r, i⟩ =>
      some ({ s with value := CInt.signed 32 (r + 1) }, ⟨.loadPrinted, i⟩)
  | ⟨.loadPrinted, i⟩ => some (s, ⟨.printValue s.value, i⟩)
  | ⟨.printValue _, i⟩ => some (s, ⟨.release k.releaseWriteStart, i⟩)
  | ⟨.release p, i⟩ => (k.releaseWrite s.lock p).map fun r =>
      ({ s with lock := r.1 }, r.2.resume (fun p => ⟨.release p, i⟩) ⟨.loop, i + 1⟩)
  | ⟨.finished, _⟩ => none

/-- One step of a thread. -/
def thread (s : Shared L) : Thread A R B W → Option (Shared L × Thread A R B W)
  | .reader r => (reader k loops s r).map fun x => (x.1, .reader x.2)
  | .writer w => (writer k loops s w).map fun x => (x.1, .writer x.2)

/-- The threads `main` creates. -/
abbrev Tid (numReaders numWriters : Nat) := Fin numReaders ⊕ Fin numWriters

/-- A fresh lock, `value` zero, every thread at the head of its loop. -/
def initial (numReaders numWriters : Nat) :
    Conf (Tid numReaders numWriters) (Shared L) (Thread A R B W) :=
  ⟨⟨k.init, 0⟩, Sum.elim (fun _ => .reader ⟨.loop, 0⟩) (fun _ => .writer ⟨.loop, 0⟩)⟩

/-- `main`, from the creation of its threads on. -/
def main (numReaders numWriters loops : Nat) :
    System (Conf (Tid numReaders numWriters) (Shared L) (Thread A R B W))
      (Tid numReaders numWriters) :=
  Interleave.threads (thread k loops) (initial k numReaders numWriters)

end Code

section Thread
variable {A R B W : Type}

/-- The thread has returned. -/
def Thread.isFinished : Thread A R B W → Bool
  | .reader ⟨.finished, _⟩ | .writer ⟨.finished, _⟩ => true
  | _ => false

/-- About to store an increment of `value`. -/
@[simp] def Thread.storesValue : Thread A R B W → Bool
  | .writer ⟨.storeValue _, _⟩ => true
  | _ => false

/-- How many increments of `value` the thread has still to store. -/
@[simp] def Thread.toWrite (loops : Nat) : Thread A R B W → Nat
  | .writer ⟨.loop, i⟩ | .writer ⟨.acquire _, i⟩ | .writer ⟨.loadValue, i⟩
  | .writer ⟨.storeValue _, i⟩ => loops - i
  | .writer ⟨.loadPrinted, i⟩ | .writer ⟨.printValue _, i⟩
  | .writer ⟨.release _, i⟩ => loops - (i + 1)
  | _ => 0

theorem Thread.toWrite_of_isFinished {loops : Nat} {t : Thread A R B W}
    (h : t.isFinished) : t.toWrite loops = 0 := by
  cases t with
  | reader r => simp
  | writer w =>
      obtain ⟨pc, i⟩ := w
      cases pc <;> simp_all [Thread.isFinished]

end Thread

end CAdvanced.ReaderWriterMain
