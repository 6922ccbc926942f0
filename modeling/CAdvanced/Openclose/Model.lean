import CAdvanced.CInt.Wrap
import CAdvanced.Interleave.Threads

/-!
# Openclose — Model

The device of `openclose.c`, which counts its open instances in one global `int` and
refuses to have more than `MAX_DEVICES`. Nothing protects the count: the comparison, and
the load and the store of `count++` and of `count--`, are steps of their own.

An instance is opened at most once, and closed at most once after that; there are as many
of them as one likes.
-/

namespace CAdvanced.Openclose

open Interleave CInt

/-- `MAX_DEVICES`. -/
def maxDevices : Int := 257

/-- `EBUSY`. -/
def ebusy : Int := 16

/-- Where a call of `driver_open` stands; a store has the value that was loaded. -/
inductive OpenPc where
  | compare
  | load
  | store (loaded : Int)
  deriving DecidableEq, Repr

/-- Where a call of `driver_close` stands. -/
inductive ClosePc where
  | load
  | store (loaded : Int)
  deriving DecidableEq, Repr

/-- A step of a call goes on, or returns. -/
inductive Result (π : Type) where
  | goto (p : π)
  | ret (r : Int)
  deriving DecidableEq, Repr

/-- One step of `driver_open`. -/
def driverOpen (count : Int) : OpenPc → Int × Result OpenPc
  | .compare => (count, if count ≥ maxDevices then .ret (-ebusy) else .goto .load)
  | .load => (count, .goto (.store count))
  | .store loaded => (signed 32 (loaded + 1), .ret 0)

/-- One step of `driver_close`. -/
def driverClose (count : Int) : ClosePc → Int × Result ClosePc
  | .load => (count, .goto (.store count))
  | .store loaded => (signed 32 (loaded - 1), .ret 0)

/-- The life of an instance. -/
inductive Instance where
  | fresh
  | opening (p : OpenPc)
  | opened
  | refused
  | closing (p : ClosePc)
  | closed
  deriving DecidableEq, Repr

/-- Where an instance is after a step of its `driver_open`. -/
def Instance.ofOpen : Result OpenPc → Instance
  | .goto p => .opening p
  | .ret r => if r = 0 then .opened else .refused

/-- Where an instance is after a step of its `driver_close`. -/
def Instance.ofClose : Result ClosePc → Instance
  | .goto p => .closing p
  | .ret _ => .closed

/-- One step of an instance; only an open one is closed. -/
def code (count : Int) : Instance → Option (Int × Instance)
  | .fresh => some (count, .opening .compare)
  | .opening p => some ((driverOpen count p).1, .ofOpen (driverOpen count p).2)
  | .opened => some (count, .closing .load)
  | .closing p => some ((driverClose count p).1, .ofClose (driverClose count p).2)
  | .refused => none
  | .closed => none

/-- The global `count`, and the instances. -/
abbrev State (ι : Type) := Conf ι Int Instance

/-- The freshly loaded module. -/
def start (ι : Type) : State ι := ⟨0, fun _ => .fresh⟩

/-- The module and its users. -/
def openclose (ι : Type) [DecidableEq ι] : System (State ι) ι := threads code (start ι)

end CAdvanced.Openclose
