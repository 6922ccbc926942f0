import CAdvanced.FileServerMain.Model
import CAdvanced.Interleave.System

/-!
# FileServerSignals — Model

`main` of `file-server-signals.c`. SIGINT may arrive between any two steps of the main
loop, and sets `eflag`; if it arrives while the program is blocked in `select`, that call
returns an error and leaves the sets as they are. Both objects that `cleanExit` frees have
a history: `info`, which is NULL until it is allocated, and the record of the server. The
two `malloc`s are taken to succeed.
-/

namespace CAdvanced.FileServerSignals

open Interleave Heap FileServerMain

/-- What the calls of `AsyncreadFromFile` come to: those of `readFromFile`, the descriptor
that `open` returns, and the results of `aio_read`, `aio_error` and `aio_return`. -/
structure AsyncCall where
  sync : FileCall
  file : Int
  aioRead : Int
  aioError : Int
  aioReturn : Int
  deriving DecidableEq, Repr

/-- What `AsyncreadFromFile` returns: NULL, the buffer of `readFromFile`, or the address of
its own local `buffer`. That address is indeterminate as soon as the function has returned, and
a compiler may return anything for it (`gcc` returns NULL); no content stands behind it here. -/
inductive Returned where
  | null
  | result (content : List UInt8)
  | buffer
  deriving DecidableEq, Repr

/-- `AsyncreadFromFile`. The zero bytes it allocates itself are never freed; `!file` is
false for the descriptor of a failed `open`. -/
def asyncreadFromFile (f : AsyncCall) (r : Resources) : Returned × Resources :=
  match readFromFile f.sync r with
  | (some content, r) => (.result content, r)
  | (none, r) =>
      let r := { r with buffers := r.buffers + 1 }
      if f.file = 0 then (.null, r)
      else if f.aioRead = -1 then (.null, r)
      else if f.aioError ≠ 0 then (.null, r)
      else if f.aioReturn ≠ 0 then (.null, r)
      else (.buffer, r)

/-- The globals, and what `readFromFile` holds. -/
structure Globals where
  eflag : Bool
  info : Option (Cell Unit)
  resources : Resources
  deriving DecidableEq, Repr

/-- `log_message`: `info` is read. -/
def logMessage (g : Globals) : Globals := { g with info := g.info.map Cell.use }

/-- `handler`. -/
def handler (g : Globals) : Globals := { g with eflag := true }

/-- `cleanExit` frees `info` as well, and files are read by `AsyncreadFromFile`. -/
def serverCode : ServerCode Globals AsyncCall where
  cleanExit g := { g with info := g.info.map Cell.free }
  readFile f g :=
    let r := asyncreadFromFile f g.resources
    (r.1 ≠ .null, { g with resources := r.2 })

/-- The program points of `main`. -/
inductive Pc where
  | create (p : CreateServer)
  | createExit
  | signal
  | loopTest
  | logMessage
  | body (p : Body)
  | finalLog
  | finalExit
  | exited
  deriving DecidableEq, Repr

/-- A configuration of the program. -/
structure Conf where
  pc : Pc
  state : State Globals
  deriving DecidableEq, Repr

/-- What happens next: a step of `main`, or SIGINT. -/
inductive Event where
  | step (a : Answer AsyncCall)
  | sigint
  deriving DecidableEq, Repr

/-- `main`, one step. -/
def step (junk : Nat → Int) (a : Answer AsyncCall) (c : Conf) : Option Conf :=
  match c.pc with
  | .create p =>
      let r := createServer a c.state p
      some ⟨match r.2 with
        | .inl p => .create p
        | .inr rc => if rc ≠ 0 then .createExit else .signal, r.1⟩
  | .createExit => some ⟨.signal, c.state.cleanExit serverCode⟩
  -- `signal(SIGINT, handler)` and the allocation of `info`
  | .signal =>
      some ⟨.loopTest,
        { c.state with own := { c.state.own with info := some (Cell.new ()) } }⟩
  | .loopTest => some ⟨if c.state.own.eflag then .finalLog else .logMessage, c.state⟩
  | .logMessage => some ⟨.body .fdSet, { c.state with own := logMessage c.state.own }⟩
  | .body p =>
      let r := body serverCode junk a c.state p
      some ⟨r.2.resume .body .loopTest, r.1⟩
  | .finalLog => some ⟨.finalExit, { c.state with own := logMessage c.state.own }⟩
  | .finalExit => some ⟨.exited, c.state.cleanExit serverCode⟩
  | .exited => none

/-- SIGINT arrives: `handler` runs, and a `select` in progress returns an error. Before
the main loop the handler is not installed, and afterwards there is no program. -/
def sigint (c : Conf) : Option Conf :=
  match c.pc with
  | .create _ | .createExit | .signal | .exited => none
  | .body .select =>
      some ⟨.body .selectClose, { c.state with own := handler c.state.own }⟩
  | pc => some ⟨pc, { c.state with own := handler c.state.own }⟩

def next (junk : Nat → Int) : Event → Conf → Option Conf
  | .step a, c => step junk a c
  | .sigint, c => sigint c

/-- `main` at its start; the variables that have not been assigned are zero here. -/
def start : Conf where
  pc := .create .socket
  state :=
    { server := Cell.new 0, readfds := [], notdone := true, clientFiledescriptor := 0,
      accepted := [], own := ⟨false, none, 0, 0⟩ }

/-- The program, in which late reads of `*server` find `junk`. -/
def main (junk : Nat → Int) : System Conf Event := ⟨start, next junk⟩

end CAdvanced.FileServerSignals
