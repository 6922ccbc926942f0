import CAdvanced.Heap.Lifetime
import CAdvanced.Interleave.System
import Mathlib.Algebra.GroupWithZero.Nat

/-!
# HelloCounted — Model

The device of `hello_counted.c`. Every open allocates a counter, and one global pointer,
`counted`, says where the last one is; reads count there, and every close frees what it
points to. A call is one step; `kmalloc` succeeds, and the buffer for the text is allocated
and freed within the call. What a read finds in a freed counter is part of the run.
-/

namespace CAdvanced.HelloCounted

open Interleave Heap

/-- A file instance is opened once and closed once. -/
inductive Status where
  | fresh
  | opened
  | closed
  deriving DecidableEq, Repr

/-- A file instance, with its `*offset`. -/
structure Instance where
  status : Status
  offset : Int
  deriving DecidableEq, Repr

/-- The counters that have been allocated, oldest first; the global pointer `counted`, as
the place of a counter among them; and the instances. -/
structure Device (ι : Type) where
  counters : List (Cell Int)
  counted : Option Nat
  instances : ι → Instance

/-- The text of `sprintf`. -/
def message (counted : Int) : String :=
  "Hello from grp20. You have read " ++ toString counted ++ " bytes so far.\n"

/-- Conversion to `int`. -/
def toInt (n : Int) : Int := n.bmod (2 ^ 32)

/-- What a read leaves behind: the counter, `*offset`, what it returns, and the characters
that it copied to the user. -/
structure Reply where
  counter : Cell Int
  offset : Int
  ret : Nat
  delivered : List Char
  deriving DecidableEq, Repr

/-- `read_hello(instanz, user, count, offset)`, where `copy_to_user` leaves `notCopied`
characters out. The offset is never negative, so the comparison is that of the numbers. -/
def readHello (junk : Nat → Int) (counter : Cell Int) (offset : Int) (count notCopied : Nat) :
    Reply :=
  let hello := (message (counter.load junk)).toList
  let counter := counter.use
  let toCopy := hello.length
  if toCopy ≤ offset then ⟨counter, offset, 0, []⟩
  else
    let toCopy := min toCopy count
    let copied := toCopy - notCopied
    ⟨counter.store (toInt (counter.load junk + copied)), offset + copied, copied,
      hello.take copied⟩

/-- A call of the driver on the instance `i`. -/
inductive Call (ι : Type) where
  | driverOpen (i : ι)
  | readHello (i : ι) (count notCopied : Nat)
  | driverClose (i : ι)
  deriving DecidableEq, Repr

section Driver
variable {ι : Type} [DecidableEq ι]

/-- The counter that the global points to. -/
def Device.counter (d : Device ι) : Option (Cell Int) := d.counted.bind fun k => d.counters[k]?

/-- Writes to the counter that the global points to. -/
def Device.setCounter (d : Device ι) (c : Cell Int) : Device ι :=
  { d with counters := match d.counted with
      | none => d.counters
      | some k => d.counters.set k c }

/-- One call. -/
def next (junk : Nat → Int) : Call ι → Device ι → Option (Device ι)
  | .driverOpen i, d =>
      if (d.instances i).status = .fresh then
        some {
          counters := d.counters ++ [Cell.new 0]
          counted := some d.counters.length
          instances := Function.update d.instances i ⟨.opened, (d.instances i).offset⟩ }
      else none
  | .readHello i count notCopied, d =>
      if (d.instances i).status = .opened then
        d.counter.map fun c =>
          let r := readHello junk c (d.instances i).offset count notCopied
          { d.setCounter r.counter with
            instances := Function.update d.instances i ⟨.opened, r.offset⟩ }
      else none
  | .driverClose i, d =>
      if (d.instances i).status = .opened then
        d.counter.map fun c =>
          { d.setCounter c.free with
            instances := Function.update d.instances i ⟨.closed, (d.instances i).offset⟩ }
      else none

/-- The freshly loaded module. -/
def start (ι : Type) : Device ι := ⟨[], none, fun _ => ⟨.fresh, 0⟩⟩

/-- The module and its users. -/
def device (ι : Type) [DecidableEq ι] (junk : Nat → Int) : System (Device ι) (Call ι) :=
  ⟨start ι, next junk⟩

end Driver
end CAdvanced.HelloCounted
