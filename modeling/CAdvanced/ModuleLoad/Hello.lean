import CAdvanced.ModuleLoad.Outcome

/-!
# ModuleLoad — hello

The init function of hello by the first call that fails, each with what is held there and
what the labels give back. Two jumps go past labels that would be needed.
-/

namespace CAdvanced.ModuleLoad

open CAdvanced.Sequential CAdvanced.Sequential.Code

variable {k : Answers}

namespace Hello

variable (hRegion : k .allocChrdevRegion = true) (hAlloc : k .cdevAlloc = true)
  (hAdd : k .cdevAdd = true) (hClass : k .classCreate = true)

theorem modInit_region_fails (h : k .allocChrdevRegion = false) :
    modInit k {} = (some (-eio), { failed := [.allocChrdevRegion] }) := by
  simp [modInit, ↓bind_run, allocChrdevRegion, h, enomem]
  rfl

include hRegion

theorem modInit_cdevAlloc_fails (h : k .cdevAlloc = false) :
    modInit k {} = (some (-eio),
      { failed := [.cdevAlloc], ledger := .giveAll [.number 0] ⟨[.number 0], []⟩ }) := by
  simp [modInit, ↓bind_run, allocChrdevRegion, hRegion, cdevAlloc, h, freeDeviceNumber,
    unregisterChrdevRegion, freeClass]
  rfl

include hAlloc

theorem modInit_cdevAdd_fails (h : k .cdevAdd = false) :
    modInit k {} = (some (-eio),
      { driverObject := .obj .cdev, failed := [.cdevAdd]
        ledger := .giveAll [.cdev, .number 0] ⟨[.cdev, .number 0], []⟩ }) := by
  simp [modInit, ↓bind_run, allocChrdevRegion, hRegion, cdevAlloc, hAlloc, cdevAdd, follow, h,
    enomem, freeCharacterDevice, freeDeviceNumber, unregisterChrdevRegion, freeClass]
  rfl

include hAdd

/-- `free_class` is below the labels that would give anything back. -/
theorem modInit_class_fails (h : k .classCreate = false) :
    modInit k {} = (some (-eio),
      { driverObject := .obj .cdev, driverClass := .err, failed := [.classCreate]
        ledger := .giveAll [] ⟨[.registration, .cdev, .number 0], []⟩ }) := by
  simp [modInit, ↓bind_run, allocChrdevRegion, hRegion, cdevAlloc, hAlloc, cdevAdd, follow, hAdd,
    classCreate, h, isErr, freeClass]
  rfl

include hClass

/-- `free_device_number` is below `free_character_device`: the device stays in the table. -/
theorem modInit_device_fails (h : k (.deviceCreate 0) = false) :
    modInit k {} = (some (-eio),
      { driverObject := .obj .cdev, driverClass := .obj .cls, failed := [.deviceCreate 0]
        ledger := .giveAll [.number 0, .cls] ⟨[.cls, .registration, .cdev, .number 0], []⟩ }) := by
  simp [modInit, ↓bind_run, allocChrdevRegion, hRegion, cdevAlloc, hAlloc, cdevAdd, follow, hAdd,
    classCreate, hClass, isErr, h, freeDeviceNumber, unregisterChrdevRegion, freeClass]
  rfl

omit hRegion hAlloc hAdd hClass

/-- What is there once hello is loaded. -/
def up : Session :=
  { driverObject := .obj .cdev
    driverClass := .obj .cls
    ledger := { held := [.device 0, .cls, .registration, .cdev, .number 0] } }

theorem modInit_up (h : Module.hello.allChecked k = true) : modInit k {} = (some 0, up) := by
  simp only [Module.allChecked, Module.checked, List.all_cons, List.all_nil, Bool.and_eq_true] at h
  obtain ⟨hRegion, hAlloc, hAdd, hClass, hDevice, -⟩ := h
  simp [modInit, ↓bind_run, allocChrdevRegion, hRegion, cdevAlloc, hAlloc, cdevAdd, follow, hAdd,
    classCreate, hClass, isErr, hDevice]
  rfl

/-- **hello, loading**: what goes wrong is a class or a device that cannot be made. -/
theorem modInit_loaded (k : Answers) : Loaded .hello k (modInit k {}).1 (modInit k {}).2 := by
  cases hRegion : k .allocChrdevRegion with
  | false =>
      rw [modInit_region_fails hRegion]
      exact .of_clean .allocChrdevRegion (by decide) hRegion (by decide) rfl (by decide)
        (by decide) (by simp [Module.loadsWell, hRegion])
  | true =>
  cases hAlloc : k .cdevAlloc with
  | false =>
      rw [modInit_cdevAlloc_fails hRegion hAlloc]
      exact .of_clean .cdevAlloc (by decide) hAlloc (by decide) rfl (by decide)
        ((Ledger.settled_giveAll_iff _ _).mpr (by decide)) (by simp [Module.loadsWell, hAlloc])
  | true =>
  cases hAdd : k .cdevAdd with
  | false =>
      rw [modInit_cdevAdd_fails hRegion hAlloc hAdd]
      exact .of_clean .cdevAdd (by decide) hAdd (by decide) rfl (by decide)
        ((Ledger.settled_giveAll_iff _ _).mpr (by decide)) (by simp [Module.loadsWell, hAdd])
  | true =>
  cases hClass : k .classCreate with
  | false =>
      rw [modInit_class_fails hRegion hAlloc hAdd hClass]
      exact .of_dirty .classCreate (by decide) hClass (by decide)
        (.inr (.inr (mt (Ledger.settled_giveAll_iff _ _).mp (by decide))))
        (by simp [Module.loadsWell, hRegion, hAlloc, hAdd, hClass])
  | true =>
  cases hDevice : k (.deviceCreate 0) with
  | false =>
      rw [modInit_device_fails hRegion hAlloc hAdd hClass hDevice]
      exact .of_dirty (.deviceCreate 0) (by decide) hDevice (by decide)
        (.inr (.inr (mt (Ledger.settled_giveAll_iff _ _).mp (by decide))))
        (by simp [Module.loadsWell, hRegion, hAlloc, hAdd, hDevice])
  | true =>
      have hall : Module.hello.allChecked k = true := by
        simp [Module.allChecked, Module.checked, hRegion, hAlloc, hAdd, hClass, hDevice]
      rw [modInit_up hall]
      exact .of_up hall (by decide) rfl (by simp [Module.loadsWell, hClass, hDevice])

theorem modExit_up : modExit up = (some (), { up with ledger := {} }) := by decide

end Hello

end CAdvanced.ModuleLoad
