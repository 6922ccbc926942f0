import CAdvanced.CInt.Wrap
import CAdvanced.CText.Lines
import CAdvanced.CText.Number
import CAdvanced.Interleave.Sync
import CAdvanced.Interleave.Threads

/-!
# MyController — Model

The two counting endpoints of `MyController.hpp`, under any number of server threads that
serve one request after the other on the one controller. `/FScounter` keeps its count in
the file `counter.txt`, under a mutex; `/MEMcounter` keeps it in an atomic variable.

A step is one lock or unlock, one opening, reading or writing of the file, or one atomic
operation. Whether a file can be opened is decided by the environment.
-/

namespace CAdvanced.MyController

open Interleave CInt CText

/-- A thread takes on a request, or goes on with its own. -/
inductive Action (ε : Type) where
  | request
  | step (e : ε)
  deriving DecidableEq, Repr

/-! ## `/FScounter` -/

namespace Fscounter

/-- Where the handler stands. -/
inductive Pc where
  | lock
  | open1
  | getlines
  | increment
  | open2
  | write
  | unlock
  | respond
  deriving DecidableEq, Repr

/-- A request in progress, with its variable `i`. -/
structure Frame where
  pc : Pc
  i : Int
  deriving DecidableEq, Repr

def Frame.goto (f : Frame) (p : Pc) : Frame := { f with pc := p }

/-- The mutex of the controller, and the contents of `counter.txt`. -/
structure Shared (ι : Type) where
  mutex : Mutex ι
  file : List Char
  deriving DecidableEq

/-- The `while` loop: `i` is the number in the last line, and an exception of `std::stoi`
leaves the loop. -/
def readLines (i : Int) (ls : List (List Char)) : Except StoiError Int :=
  ls.foldlM (fun _ line => stoi line) i

section Code
variable {ι : Type}

/-- One step of the handler of thread `j`; `opened` says whether a file can be opened. An
exception ends the request there and then. -/
def fscounter (j : ι) (opened : Bool) (s : Shared ι) (f : Frame) :
    Option (Shared ι × Option Frame) :=
  match f.pc with
  | .lock => (s.mutex.lock j).map fun m => ({ s with mutex := m }, some (f.goto .open1))
  | .open1 => some (s, some (f.goto (if opened then .getlines else .increment)))
  | .getlines =>
      match readLines f.i (lines s.file) with
      | .ok i => some (s, some ⟨.increment, i⟩)
      | .error _ => some (s, none)
  | .increment => some (s, some ⟨.open2, signed 32 (f.i + 1)⟩)
  | .open2 =>
      if opened then some ({ s with file := [] }, some (f.goto .write))
      else some (s, some (f.goto .unlock))
  | .write => some ({ s with file := decimal f.i }, some (f.goto .unlock))
  | .unlock => some ({ s with mutex := s.mutex.unlock }, some (f.goto .respond))
  | .respond => some (s, none)

/-- A step of thread `j`. -/
def code (j : ι) : Action Bool → Shared ι → Option Frame → Option (Shared ι × Option Frame)
  | .request, s, none => some (s, some ⟨.lock, 0⟩)
  | .step opened, s, some f => fscounter j opened s f
  | _, _, _ => none

/-- The controller and the threads of the server. -/
abbrev State (ι : Type) := Conf ι (Shared ι) (Option Frame)

/-- The server has just been started, with these contents of `counter.txt`. -/
def start (ι : Type) (file : List Char) : State ι := ⟨⟨none, file⟩, fun _ => none⟩

def server (ι : Type) [DecidableEq ι] (file : List Char) : System (State ι) (ι × Action Bool) :=
  ⟨start ι file, fun l c => c.step (code l.1 l.2) l.1⟩

/-- What a step responds. -/
def responds (l : ι × Action Bool) (c : State ι) : Option Int :=
  match c.threads l.1 with
  | some ⟨.respond, i⟩ => some i
  | _ => none

/-- The responses of a run, `std::to_string(i)` each. -/
def responses [DecidableEq ι] (file : List Char) (ls : List (ι × Action Bool)) :
    List (List Char) :=
  ((server ι file).trace responds ls (start ι file)).map decimal

end Code
end Fscounter

/-! ## `/MEMcounter` -/

namespace Memcounter

/-- `sprintf(s, "%llu", n)` into an array of `size` characters; nothing can be said if the
text and its NUL do not fit. -/
def sprintf (size n : Nat) : Option (List Char) :=
  if (decimal n).length < size then some (decimal n) else none

/-- Where the handler stands: what `i++` makes of the counter, which the handler throws away,
and what `i.load()` has loaded. -/
inductive Pc where
  | increment
  | load (own : Nat)
  | respond (loaded : Nat)
  deriving DecidableEq, Repr

section Code
variable {ι : Type}

/-- One step of the handler, on the `unsigned long long` counter. -/
def memcounter (i : Nat) : Pc → Option (Nat × Option Pc)
  | .increment => some (unsigned 64 (i + 1 : Nat), some (.load (unsigned 64 (i + 1 : Nat))))
  | .load _ => some (i, some (.respond i))
  | .respond _ => some (i, none)

/-- A step of a thread. -/
def code : Action Unit → Nat → Option Pc → Option (Nat × Option Pc)
  | .request, i, none => some (i, some .increment)
  | .step _, i, some p => memcounter i p
  | _, _, _ => none

/-- The counter and the threads of the server. -/
abbrev State (ι : Type) := Conf ι Nat (Option Pc)

/-- The server has just been started. -/
def start (ι : Type) : State ι := ⟨0, fun _ => none⟩

def server (ι : Type) [DecidableEq ι] : System (State ι) (ι × Action Unit) :=
  ⟨start ι, fun l c => c.step (code l.2) l.1⟩

/-- What a step has loaded to respond. -/
def responds (l : ι × Action Unit) (c : State ι) : Option Nat :=
  match c.threads l.1 with
  | some (.respond loaded) => some loaded
  | _ => none

/-- The responses of a run; the array `s` has 20 characters. -/
def responses [DecidableEq ι] (ls : List (ι × Action Unit)) : List (Option (List Char)) :=
  ((server ι).trace responds ls (start ι)).map (sprintf 20)

end Code
end Memcounter
end CAdvanced.MyController
