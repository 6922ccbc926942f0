import CAdvanced.ModuleLoad.Outcome

/-!
# ModuleLoad — mybuffer

The init function of mybuffer by the first call that fails: it dies, returns early, or
reports success.
-/

namespace CAdvanced.ModuleLoad

open CAdvanced.Sequential CAdvanced.Sequential.Code

variable {k : Answers}

namespace Mybuffer

/-- The store to `buffer->buffer` follows the NULL pointer. -/
theorem modInit_struct_fails (h : k .kmalloc = false) :
    (modInit k {}).1 = none ∧ .kmalloc ∈ (modInit k {}).2.failed := by
  cases hStorage : k .kcalloc <;>
    simp [modInit, ↓bind_run, kmalloc, h, belowZero, kcalloc, hStorage]

variable (hStruct : k .kmalloc = true)

include hStruct

theorem modInit_region_fails (h : k .allocChrdevRegion = false) :
    .struct ∈ (modInit k {}).2.ledger.held ∧
      .allocChrdevRegion ∈ (modInit k {}).2.failed := by
  cases hStorage : k .kcalloc <;>
    simp [modInit, ↓bind_run, kmalloc, hStruct, belowZero, kcalloc, hStorage, follow,
      allocChrdevRegion, h, enomem]

variable (hRegion : k .allocChrdevRegion = true)

include hRegion

/-- All labels end in `return 0`. -/
theorem modInit_cdevAlloc_fails (h : k .cdevAlloc = false) :
    (modInit k {}).1 = some 0 ∧ .cdevAlloc ∈ (modInit k {}).2.failed := by
  cases hStorage : k .kcalloc <;>
    simp [modInit, ↓bind_run, kmalloc, hStruct, belowZero, kcalloc, hStorage, follow,
      allocChrdevRegion, hRegion, cdevAlloc, h, freeDeviceNumber, unregisterChrdevRegion,
      freeBuffer, freeStruct] <;> decide

variable (hAlloc : k .cdevAlloc = true)

include hAlloc

theorem modInit_cdevAdd_fails (h : k .cdevAdd = false) :
    (modInit k {}).1 = some 0 ∧ .cdevAdd ∈ (modInit k {}).2.failed := by
  cases hStorage : k .kcalloc <;>
    simp [modInit, ↓bind_run, kmalloc, hStruct, belowZero, kcalloc, hStorage, follow,
      allocChrdevRegion, hRegion, cdevAlloc, hAlloc, cdevAdd, h, enomem, freeCharacterDevice,
      freeDeviceNumber, unregisterChrdevRegion, freeBuffer, freeStruct] <;> decide

variable (hAdd : k .cdevAdd = true)

include hAdd

/-- `kcalloc` is tested with `< 0`. -/
theorem modInit_storage_fails (h : k .kcalloc = false) :
    (modInit k {}).1 = some 0 ∧ .kcalloc ∈ (modInit k {}).2.failed := by
  cases hClass : k .classCreate <;> cases hDevice : k (.deviceCreate 0) <;>
    simp [modInit, ↓bind_run, kmalloc, hStruct, belowZero, kcalloc, h, follow, allocChrdevRegion,
      hRegion, cdevAlloc, hAlloc, cdevAdd, hAdd, classCreate, hClass, hDevice]

omit hStruct hRegion hAlloc hAdd

/-- What is there once mybuffer is loaded. -/
def up (cls device : Bool) : Session :=
  { buffer := .obj .struct
    bufferBuffer := .obj .storage
    driverObject := .obj .cdev
    driverClass := if cls then .obj .cls else .err
    failed := (if cls && device then [] else [.deviceCreate 0]) ++ if cls then [] else [.classCreate]
    ledger :=
      { held := (if cls && device then [.device 0] else []) ++ (if cls then [.cls] else []) ++
          [.registration, .cdev, .number 0, .storage, .struct] } }

theorem modInit_up (h : Module.mybuffer.allChecked k = true) :
    modInit k {} = (some 0, up (k .classCreate) (k (.deviceCreate 0))) := by
  simp only [Module.allChecked, Module.checked, List.all_cons, List.all_nil, Bool.and_eq_true] at h
  obtain ⟨hStruct, hStorage, hRegion, hAlloc, hAdd, -⟩ := h
  cases hClass : k .classCreate <;> cases hDevice : k (.deviceCreate 0) <;>
    simp [modInit, ↓bind_run, kmalloc, hStruct, belowZero, kcalloc, hStorage, follow,
      allocChrdevRegion, hRegion, cdevAlloc, hAlloc, cdevAdd, hAdd, classCreate, hClass, hDevice]
    <;> rfl

/-- **mybuffer, loading**: no failure of a checked call is dealt with. -/
theorem modInit_loaded (k : Answers) : Loaded .mybuffer k (modInit k {}).1 (modInit k {}).2 := by
  cases hStruct : k .kmalloc with
  | false =>
      obtain ⟨hr, hs⟩ := modInit_struct_fails hStruct
      exact .of_dirty .kmalloc (by decide) hStruct hs (.inl hr)
        (allChecked_of_false (by decide) hStruct)
  | true =>
  cases hRegion : k .allocChrdevRegion with
  | false =>
      obtain ⟨hheld, hs⟩ := modInit_region_fails hStruct hRegion
      refine .of_dirty .allocChrdevRegion (by decide) hRegion hs (.inr (.inr fun hset => ?_))
        (allChecked_of_false (by decide) hRegion)
      simp [hset.1] at hheld
  | true =>
  cases hAlloc : k .cdevAlloc with
  | false =>
      obtain ⟨hr, hs⟩ := modInit_cdevAlloc_fails hStruct hRegion hAlloc
      exact .of_dirty .cdevAlloc (by decide) hAlloc hs (.inr (.inl hr))
        (allChecked_of_false (by decide) hAlloc)
  | true =>
  cases hAdd : k .cdevAdd with
  | false =>
      obtain ⟨hr, hs⟩ := modInit_cdevAdd_fails hStruct hRegion hAlloc hAdd
      exact .of_dirty .cdevAdd (by decide) hAdd hs (.inr (.inl hr))
        (allChecked_of_false (by decide) hAdd)
  | true =>
  cases hStorage : k .kcalloc with
  | false =>
      obtain ⟨hr, hs⟩ := modInit_storage_fails hStruct hRegion hAlloc hAdd hStorage
      exact .of_dirty .kcalloc (by decide) hStorage hs (.inr (.inl hr))
        (allChecked_of_false (by decide) hStorage)
  | true =>
      have hall : Module.mybuffer.allChecked k = true := by
        simp [Module.allChecked, Module.checked, hStruct, hStorage, hRegion, hAlloc, hAdd]
      rw [modInit_up hall]
      refine .of_up hall ?_ rfl hall
      cases k .classCreate <;> cases k (.deviceCreate 0) <;> decide

theorem modExit_up (device : Bool) :
    (modExit (up true device)).1 = some () ∧ (modExit (up true device)).2.ledger.Settled := by
  cases device <;> decide

/-- `device_destroy` follows the error pointer that `class_create` returned. -/
theorem not_settled_modExit (device : Bool) :
    ¬ (modExit (up false device)).2.ledger.Settled := by
  cases device <;> decide

end Mybuffer

end CAdvanced.ModuleLoad
