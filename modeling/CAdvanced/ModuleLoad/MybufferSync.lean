import CAdvanced.ModuleLoad.Outcome

/-!
# ModuleLoad — mybuffer_sync

The init function of mybuffer_sync by the first call that fails. The test of `kcalloc` never
fires, so that each of the cases comes with the storage and without it.
-/

namespace CAdvanced.ModuleLoad

open CAdvanced.Sequential CAdvanced.Sequential.Code

variable {k : Answers}

namespace MybufferSync

/-- `kernelmem` after `kcalloc`. -/
def mem (b : Bool) : Ptr := if b then .obj .storage else .null

/-- What `kcalloc` has taken. -/
def stored (b : Bool) : List Res := if b then [.storage] else []

/-- The calls that have failed once `kcalloc` is over. -/
def lost (b : Bool) : List Call := if b then [] else [.kcalloc]

variable (hRegion : k .allocChrdevRegion = true) (hAlloc : k .cdevAlloc = true)
  (hAdd : k .cdevAdd = true)

/-- The early return does not go through `free_buffer`. -/
theorem templateInit_region_fails (h : k .allocChrdevRegion = false) :
    templateInit k {} = (some (-eio),
      { kernelmem := mem (k .kcalloc), failed := .allocChrdevRegion :: lost (k .kcalloc)
        ledger := .giveAll [] ⟨stored (k .kcalloc), []⟩ }) := by
  cases hStorage : k .kcalloc <;>
    simp [templateInit, ↓bind_run, kcalloc, hStorage, belowZero, allocChrdevRegion, h, enomem] <;> rfl

include hRegion

theorem templateInit_cdevAlloc_fails (h : k .cdevAlloc = false) :
    templateInit k {} = (some (-eio),
      { kernelmem := mem (k .kcalloc), failed := .cdevAlloc :: lost (k .kcalloc)
        ledger := .giveAll (.number 0 :: stored (k .kcalloc))
          ⟨.number 0 :: stored (k .kcalloc), []⟩ }) := by
  cases hStorage : k .kcalloc <;>
    simp [templateInit, ↓bind_run, kcalloc, hStorage, belowZero, allocChrdevRegion, hRegion,
      cdevAlloc, h, freeDeviceNumber, unregisterChrdevRegion, freeBuffer] <;> rfl

include hAlloc

theorem templateInit_cdevAdd_fails (h : k .cdevAdd = false) :
    templateInit k {} = (some (-eio),
      { kernelmem := mem (k .kcalloc), driverObject := .obj .cdev
        failed := .cdevAdd :: lost (k .kcalloc)
        ledger := .giveAll (.cdev :: .number 0 :: stored (k .kcalloc))
          ⟨.cdev :: .number 0 :: stored (k .kcalloc), []⟩ }) := by
  cases hStorage : k .kcalloc <;>
    simp [templateInit, ↓bind_run, kcalloc, hStorage, belowZero, allocChrdevRegion, hRegion,
      cdevAlloc, hAlloc, cdevAdd, follow, h, enomem, freeCdev, freeDeviceNumber,
      unregisterChrdevRegion, freeBuffer] <;> rfl

include hAdd

/-- `free_cdev` frees the device, but leaves it in the table. -/
theorem templateInit_class_fails (h : k .classCreate = false) :
    templateInit k {} = (some (-eio),
      { kernelmem := mem (k .kcalloc), driverObject := .obj .cdev, driverClass := .err
        failed := .classCreate :: lost (k .kcalloc)
        ledger := .giveAll (.cdev :: .number 0 :: stored (k .kcalloc))
          ⟨.registration :: .cdev :: .number 0 :: stored (k .kcalloc), []⟩ }) := by
  cases hStorage : k .kcalloc <;>
    simp [templateInit, ↓bind_run, kcalloc, hStorage, belowZero, allocChrdevRegion, hRegion,
      cdevAlloc, hAlloc, cdevAdd, follow, hAdd, classCreate, h, isErr, freeCdev, freeDeviceNumber,
      unregisterChrdevRegion, freeBuffer] <;> rfl

omit hRegion hAlloc hAdd

/-- What is there once mybuffer_sync is loaded. -/
def up (storage device : Bool) : Session :=
  { kernelmem := mem storage
    driverObject := .obj .cdev
    driverClass := .obj .cls
    failed := (if device then [] else [.deviceCreate 0]) ++ lost storage
    ledger :=
      { held := (if device then [.device 0] else []) ++
          .cls :: .registration :: .cdev :: .number 0 :: stored storage } }

include hRegion hAlloc hAdd in
theorem templateInit_up (hClass : k .classCreate = true) :
    templateInit k {} = (some 0, up (k .kcalloc) (k (.deviceCreate 0))) := by
  cases hStorage : k .kcalloc <;> cases hDevice : k (.deviceCreate 0) <;>
    simp [templateInit, ↓bind_run, kcalloc, hStorage, belowZero, allocChrdevRegion, hRegion,
      cdevAlloc, hAlloc, cdevAdd, follow, hAdd, classCreate, hClass, isErr, hDevice] <;> rfl

/-- **mybuffer_sync, loading**. -/
theorem templateInit_loaded (k : Answers) :
    Loaded .mybufferSync k (templateInit k {}).1 (templateInit k {}).2 := by
  cases hRegion : k .allocChrdevRegion with
  | false =>
      rw [templateInit_region_fails hRegion]
      cases hStorage : k .kcalloc with
      | false =>
          exact .of_clean .allocChrdevRegion (by decide) hRegion (by decide) rfl (by decide)
            (by decide) (by simp [Module.loadsWell, hStorage, hRegion])
      | true =>
          exact .of_dirty .allocChrdevRegion (by decide) hRegion (by decide)
            (.inr (.inr (mt (Ledger.settled_giveAll_iff _ _).mp (by decide))))
            (by simp [Module.loadsWell, hStorage, hRegion])
  | true =>
  cases hAlloc : k .cdevAlloc with
  | false =>
      rw [templateInit_cdevAlloc_fails hRegion hAlloc]
      exact .of_clean .cdevAlloc (by decide) hAlloc List.mem_cons_self rfl (by decide)
        ((Ledger.settled_giveAll_iff _ _).mpr (.refl _))
        (by simp [Module.loadsWell, hRegion, hAlloc])
  | true =>
  cases hAdd : k .cdevAdd with
  | false =>
      rw [templateInit_cdevAdd_fails hRegion hAlloc hAdd]
      exact .of_clean .cdevAdd (by decide) hAdd List.mem_cons_self rfl (by decide)
        ((Ledger.settled_giveAll_iff _ _).mpr (.refl _))
        (by simp [Module.loadsWell, hRegion, hAdd])
  | true =>
  cases hClass : k .classCreate with
  | false =>
      rw [templateInit_class_fails hRegion hAlloc hAdd hClass]
      refine .of_dirty .classCreate (by decide) hClass List.mem_cons_self (.inr (.inr ?_))
        (by simp [Module.loadsWell, hRegion, hAlloc, hAdd, hClass])
      rw [Ledger.settled_giveAll_iff]
      exact fun h => absurd h.length_eq (by simp)
  | true =>
  rw [templateInit_up hRegion hAlloc hAdd hClass]
  cases hStorage : k .kcalloc with
  | false =>
      exact .of_dirty .kcalloc (by decide) hStorage (by simp [up, lost]) (.inr (.inl rfl))
        (by simp [Module.loadsWell, hStorage, hRegion, hAlloc, hAdd])
  | true =>
      have hall : Module.mybufferSync.allChecked k = true := by
        simp [Module.allChecked, Module.checked, hStorage, hRegion, hAlloc, hAdd, hClass]
      refine .of_up hall ?_ rfl (by simp [Module.loadsWell, hStorage, hRegion, hClass])
      cases k (.deviceCreate 0) <;> decide

/-- Nothing frees `kernelmem`. -/
theorem not_settled_templateExit (device : Bool) :
    ¬ (templateExit (up true device)).2.ledger.Settled := by
  cases device <;> decide

end MybufferSync

end CAdvanced.ModuleLoad
