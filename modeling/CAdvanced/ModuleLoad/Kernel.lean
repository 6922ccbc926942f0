import CAdvanced.Sequential.Code
import CAdvanced.Sequential.Ledger
import Mathlib.Tactic.Simps.Basic

/-!
# ModuleLoad — The kernel calls

What the init and exit functions of the character drivers ask of the kernel, as far as the
resources go that a module holds. Each allocating or registering call may fail; a failed
call takes nothing. Calls that take a pointer follow it, and a process that follows NULL,
an error pointer or a pointer to something already freed does not come back.
-/

namespace CAdvanced.ModuleLoad

open CAdvanced.Sequential CAdvanced.Sequential.Code

/-- What a module can hold. -/
inductive Res where
  /-- The `mybuffer_t` of `kmalloc`. -/
  | struct
  /-- The bytes of `kcalloc`. -/
  | storage
  /-- The `i`-th device number of the region. -/
  | number (i : Nat)
  /-- The object of `cdev_alloc`. -/
  | cdev
  /-- The entry of `cdev_add` in the kernel's table of character devices. -/
  | registration
  | cls
  | device (i : Nat)
  deriving DecidableEq, Repr

/-- A pointer: NULL, an `ERR_PTR`, or to an object. -/
inductive Ptr where
  | null
  | err
  | obj (r : Res)
  deriving DecidableEq, Repr

/-- `IS_ERR`. -/
def isErr (p : Ptr) : Bool := p == .err

/-- `p < 0`: a pointer is compared as an unsigned number, and is never below zero. -/
def belowZero (_ : Ptr) : Bool := false

/-- The calls of an init function that can fail. -/
inductive Call where
  | kmalloc
  | kcalloc
  | allocChrdevRegion
  | cdevAlloc
  | cdevAdd
  | classCreate
  | deviceCreate (i : Nat)
  deriving DecidableEq, Repr

/-- Which calls of one load the kernel lets succeed. -/
abbrev Answers : Type := Call → Bool

/-- One load of a module, from `insmod` to `rmmod`: its static pointers, which are zero in
the freshly loaded image, the calls that have failed, and what it holds. -/
structure Session where
  /-- `buffer` of mybuffer. -/
  buffer : Ptr := .null
  /-- `buffer->buffer` of mybuffer. -/
  bufferBuffer : Ptr := .null
  /-- `kernelmem` of mybuffer_sync. -/
  kernelmem : Ptr := .null
  driverObject : Ptr := .null
  driverClass : Ptr := .null
  failed : List Call := []
  ledger : Ledger Res := {}
  deriving DecidableEq, Repr

namespace Session

@[simps] def take (rs : List Res) (s : Session) : Session := { s with ledger := s.ledger.takeAll rs }

@[simps] def give (rs : List Res) (s : Session) : Session := { s with ledger := s.ledger.giveAll rs }

@[simps] def fail (c : Call) (s : Session) : Session := { s with failed := c :: s.failed }

end Session

/-- Code of a module, run by the kernel. -/
abbrev Kernel (α : Type) : Type := Code Session α

/-- The module takes `rs`. -/
def take (rs : List Res) : Kernel Unit := write (·.take rs)

/-- The module gives `rs` back. -/
def give (rs : List Res) : Kernel Unit := write (·.give rs)

/-- The kernel's answer to a call; a failure is kept in mind. -/
def ask (k : Answers) (c : Call) : Kernel Bool :=
  fun s => if k c then (some true, s) else (some false, s.fail c)

/-- A call that answers with a pointer to what it made, or with `bad`. -/
def make (k : Answers) (c : Call) (r : Res) (bad : Ptr) : Kernel Ptr := do
  if ← ask k c then
    take [r]
    return .obj r
  else
    return bad

/-- A call that registers `rs`, and answers with zero or with an error. -/
def register (k : Answers) (c : Call) (rs : List Res) (error : Int) : Kernel Int := do
  if ← ask k c then
    take rs
    return 0
  else
    return error

/-- Follow a pointer. -/
def follow (p : Ptr) : Kernel Unit := fun s =>
  match p with
  | .obj r => if r ∈ s.ledger.held then (some (), s) else (none, s)
  | _ => (none, s)

/-- `ENOMEM`. -/
def enomem : Int := 12

/-- `EIO`. -/
def eio : Int := 5

def kmalloc (k : Answers) : Kernel Ptr := make k .kmalloc .struct .null

def kcalloc (k : Answers) : Kernel Ptr := make k .kcalloc .storage .null

/-- `kfree`, which does nothing with NULL. -/
def kfree : Ptr → Kernel Unit
  | .null => pure ()
  | .err => die
  | .obj r => give [r]

/-- The first `count` device numbers of the module's region. -/
def numbers (count : Nat) : List Res := (List.range count).map .number

def allocChrdevRegion (k : Answers) (count : Nat) : Kernel Int :=
  register k .allocChrdevRegion (numbers count) (-enomem)

def unregisterChrdevRegion (count : Nat) : Kernel Unit := give (numbers count)

def cdevAlloc (k : Answers) : Kernel Ptr := make k .cdevAlloc .cdev .null

def cdevAdd (k : Answers) (p : Ptr) : Kernel Int := do
  follow p
  register k .cdevAdd [.registration] (-enomem)

/-- `cdev_del` takes the device out of the table and drops the last reference to it. -/
def cdevDel : Ptr → Kernel Unit
  | .obj r => give [.registration, r]
  | _ => die

/-- `kobject_put(&p->kobj)` drops the last reference to the object and frees it. It stays in
the table if it was added. -/
def kobjectPut : Ptr → Kernel Unit
  | .obj r => give [r]
  | _ => die

def classCreate (k : Answers) : Kernel Ptr := make k .classCreate .cls .err

/-- `class_destroy`, which does nothing with NULL or an error. -/
def classDestroy : Ptr → Kernel Unit
  | .obj r => give [r]
  | _ => pure ()

/-- `device_create` for the `i`-th number; without a class it fails. -/
def deviceCreate (k : Answers) (cls : Ptr) (i : Nat) : Kernel Ptr :=
  match cls with
  | .obj _ => make k (.deviceCreate i) (.device i) .err
  | _ => fun s => (some .err, s.fail (.deviceCreate i))

/-- `device_destroy` for the `i`-th number looks the device up in the class, and does nothing
if it is not there. The class may be NULL; else it is followed. -/
def deviceDestroy (cls : Ptr) (i : Nat) : Kernel Unit := do
  if cls = .null then
    return
  follow cls
  if Res.device i ∈ (← read (·.ledger.held)) then
    give [.device i]

/-! ## What the calls do -/

variable {k : Answers} {c : Call}

@[simp] theorem take_run (rs : List Res) (s : Session) : take rs s = (some (), s.take rs) := rfl

@[simp] theorem give_run (rs : List Res) (s : Session) : give rs s = (some (), s.give rs) := rfl

@[simp] theorem make_of_true (h : k c = true) (r : Res) (bad : Ptr) (s : Session) :
    make k c r bad s = (some (.obj r), s.take [r]) := by
  simp [make, bind_run, ask, h]

@[simp] theorem make_of_false (h : k c = false) (r : Res) (bad : Ptr) (s : Session) :
    make k c r bad s = (some bad, s.fail c) := by
  simp [make, bind_run, ask, h]

@[simp] theorem register_of_true (h : k c = true) (rs : List Res) (error : Int) (s : Session) :
    register k c rs error s = (some 0, s.take rs) := by
  simp [register, bind_run, ask, h]

@[simp] theorem register_of_false (h : k c = false) (rs : List Res) (error : Int) (s : Session) :
    register k c rs error s = (some error, s.fail c) := by
  simp [register, bind_run, ask, h]

theorem keeps_follow {P : Session → Prop} (p : Ptr) : Keeps P (follow p) := by
  intro s hs
  unfold follow
  split
  · split <;> exact hs
  · exact hs

@[simp] theorem follow_null (s : Session) : follow .null s = (none, s) := rfl

@[simp] theorem kfree_null : kfree .null = pure () := rfl

@[simp] theorem kfree_obj (r : Res) : kfree (.obj r) = give [r] := rfl

@[simp] theorem cdevDel_obj (r : Res) : cdevDel (.obj r) = give [.registration, r] := rfl

@[simp] theorem kobjectPut_obj (r : Res) : kobjectPut (.obj r) = give [r] := rfl

@[simp] theorem classDestroy_obj (r : Res) : classDestroy (.obj r) = give [r] := rfl

@[simp] theorem classDestroy_null : classDestroy .null = pure () := rfl

@[simp] theorem classDestroy_err : classDestroy .err = pure () := rfl

@[simp] theorem deviceCreate_obj (r : Res) (i : Nat) :
    deviceCreate k (.obj r) i = make k (.deviceCreate i) (.device i) .err := rfl

@[simp] theorem deviceCreate_err (i : Nat) (s : Session) :
    deviceCreate k .err i s = (some .err, s.fail (.deviceCreate i)) := rfl

end CAdvanced.ModuleLoad
