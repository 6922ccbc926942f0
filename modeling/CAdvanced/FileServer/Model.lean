import CAdvanced.FileServerMain.Model
import CAdvanced.Interleave.System

/-!
# FileServer — Model

`main` of `file-server.c`: `createServer`, the main loop until a line on standard input
clears `notdone`, and the final `cleanExit`. The record of the server is allocated at the
start; that `malloc` may fail there is not modelled.
-/

namespace CAdvanced.FileServer

open Interleave Heap FileServerMain

/-- `cleanExit` frees `server` alone, and files are read by `readFromFile`. -/
def serverCode : ServerCode Resources FileCall where
  cleanExit := id
  readFile f r := ((readFromFile f r).1.isSome, (readFromFile f r).2)

/-- The program points of `main`. -/
inductive Pc where
  | create (p : CreateServer)
  | createExit
  | loopTest
  | body (p : Body)
  | finalExit
  | exited
  deriving DecidableEq, Repr

/-- A configuration of the program. -/
structure Conf where
  pc : Pc
  state : State Resources
  deriving DecidableEq, Repr

/-- `main`, one step. -/
def next (junk : Nat → Int) (a : Answer FileCall) (c : Conf) : Option Conf :=
  match c.pc with
  | .create p =>
      let r := createServer a c.state p
      some ⟨match r.2 with
        | .inl p => .create p
        | .inr rc => if rc ≠ 0 then .createExit else .loopTest, r.1⟩
  -- the program goes on with a freed record
  | .createExit => some ⟨.loopTest, c.state.cleanExit serverCode⟩
  | .loopTest => some ⟨if c.state.notdone then .body .fdSet else .finalExit, c.state⟩
  | .body p =>
      let r := body serverCode junk a c.state p
      some ⟨r.2.resume .body .loopTest, r.1⟩
  | .finalExit => some ⟨.exited, c.state.cleanExit serverCode⟩
  | .exited => none

/-- `main` at its start; the variables that have not been assigned are zero here. -/
def start : Conf where
  pc := .create .socket
  state :=
    { server := Cell.new 0, readfds := [], notdone := true, clientFiledescriptor := 0,
      accepted := [], own := ⟨0, 0⟩ }

/-- The program, in which late reads of `*server` find `junk`. -/
def main (junk : Nat → Int) : System Conf (Answer FileCall) := ⟨start, next junk⟩

end CAdvanced.FileServer
