import CAdvanced.ModuleLoad.Modules

/-!
# ModuleLoad — Loading and unloading

A module under any sequence of load attempts and unloads. A load runs the init function on
a fresh image, with whatever answers the kernel gives; the module stays if that returns 0,
and only then is its exit function run. An init or exit that dies leaves the module where
it is: it can neither be loaded again nor unloaded.
-/

namespace CAdvanced.ModuleLoad

open CAdvanced.Sequential CAdvanced.Sequential.Code

/-- The modules. -/
inductive Module where
  | mybuffer
  | mybufferSync
  | openclose
  | hello
  deriving DecidableEq, Repr

namespace Module

/-- The function given to `module_init`. -/
def init : Module → Answers → Kernel Int
  | .mybuffer => Mybuffer.modInit
  | .mybufferSync => MybufferSync.templateInit
  | .openclose => Openclose.modInit
  | .hello => Hello.modInit

/-- The function given to `module_exit`. -/
def exit : Module → Kernel Unit
  | .mybuffer => Mybuffer.modExit
  | .mybufferSync => MybufferSync.templateExit
  | .openclose => Openclose.modExit
  | .hello => Hello.modExit

/-- The calls whose answer the init function looks at. -/
def checked : Module → List Call
  | .mybuffer => [.kmalloc, .kcalloc, .allocChrdevRegion, .cdevAlloc, .cdevAdd]
  | .mybufferSync => [.kcalloc, .allocChrdevRegion, .cdevAlloc, .cdevAdd, .classCreate]
  | .openclose => [.allocChrdevRegion, .cdevAlloc, .cdevAdd]
  | .hello => [.allocChrdevRegion, .cdevAlloc, .cdevAdd, .classCreate, .deviceCreate 0]

end Module

inductive Event where
  | load (k : Answers)
  | unload

/-- What becomes of the module. -/
inductive Status where
  | absent
  | live (s : Session)
  | stuck
  deriving DecidableEq, Repr

/-- What a run of an init function, with its result if there is one, or of an exit function
left behind. -/
inductive Report where
  | init (r : Option Int) (s : Session)
  | exit (s : Session)
  deriving DecidableEq, Repr

/-- The status after an init function. -/
def Status.ofInit (r : Option Int) (s : Session) : Status :=
  match r with
  | none => .stuck
  | some r => if r = 0 then .live s else .absent

/-- The status after an exit function. -/
def Status.ofExit : Option Unit → Status
  | none => .stuck
  | some () => .absent

/-- One event. A module that is there is not loaded again, and one that is not there is not
unloaded: then nothing of it runs. -/
def step (m : Module) : Status → Event → Option Report × Status
  | .absent, .load k =>
      (some (.init (m.init k {}).1 (m.init k {}).2), .ofInit (m.init k {}).1 (m.init k {}).2)
  | .live s, .unload => (some (.exit (m.exit s).2), .ofExit (m.exit s).1)
  | st, _ => (none, st)

/-- What the events of a run leave behind, in order. -/
def reports (m : Module) : Status → List Event → List Report
  | _, [] => []
  | st, e :: es => (step m st e).1.toList ++ reports m (step m st e).2 es

/-- A checked call of the session has failed. -/
def Session.Failed (m : Module) (s : Session) : Prop := ∃ c ∈ s.failed, c ∈ m.checked

/-- An init in which a checked call failed returns nonzero and has given everything back,
once; so has an exit. -/
def Report.Fine (m : Module) : Report → Prop
  | .init r s => s.Failed m → (∃ e, r = some e ∧ e ≠ 0) ∧ s.ledger.Settled
  | .exit s => s.ledger.Settled

/-- Every load and unload of a run is fine. -/
def Balanced (m : Module) (es : List Event) : Prop := ∀ r ∈ reports m .absent es, r.Fine m

end CAdvanced.ModuleLoad
