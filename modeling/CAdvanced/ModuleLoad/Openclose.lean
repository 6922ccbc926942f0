import CAdvanced.ModuleLoad.Outcome

/-!
# ModuleLoad — openclose

The init function of openclose by the first call that fails, and why no unload of it is
clean: of the device numbers the last stays.
-/

namespace CAdvanced.ModuleLoad

open CAdvanced.Sequential CAdvanced.Sequential.Code

variable {k : Answers}

namespace Openclose

variable (hRegion : k .allocChrdevRegion = true) (hAlloc : k .cdevAlloc = true)

theorem modInit_region_fails (h : k .allocChrdevRegion = false) :
    modInit k {} = (some (-eio), { failed := [.allocChrdevRegion] }) := by
  simp [modInit, ↓bind_run, allocChrdevRegion, h, enomem]
  rfl

include hRegion

/-- Both labels end in `return 0`. -/
theorem modInit_cdevAlloc_fails (h : k .cdevAlloc = false) :
    (modInit k {}).1 = some 0 ∧ .cdevAlloc ∈ (modInit k {}).2.failed := by
  simp [modInit, ↓bind_run, allocChrdevRegion, hRegion, cdevAlloc, h, freeDeviceNumber,
    unregisterChrdevRegion]

include hAlloc

theorem modInit_cdevAdd_fails (h : k .cdevAdd = false) :
    (modInit k {}).1 = some 0 ∧ .cdevAdd ∈ (modInit k {}).2.failed := by
  simp [modInit, ↓bind_run, allocChrdevRegion, hRegion, cdevAlloc, hAlloc, cdevAdd, follow, h,
    enomem, freeCharacterDevice, freeDeviceNumber, unregisterChrdevRegion]

omit hRegion hAlloc

/-! ### The last device number -/

/-- The last of the device numbers is held, and no pointer leads to it. -/
structure Last (s : Session) : Prop where
  held : .number 256 ∈ s.ledger.held
  cls : s.driverClass ≠ .obj (.number 256)
  object : s.driverObject ≠ .obj (.number 256)

theorem keeps_give {rs : List Res} (h : .number 256 ∉ rs) : Keeps Last (ModuleLoad.give rs) :=
  fun _ hs => ⟨Ledger.mem_held_giveAll hs.held h, hs.cls, hs.object⟩

theorem keeps_deviceDestroy (cls : Ptr) (i : Nat) : Keeps Last (deviceDestroy cls i) := by
  unfold deviceDestroy
  split
  case isTrue => exact keeps_pure ()
  case isFalse =>
    refine (keeps_follow cls).bind fun _ => (keeps_read _).bind fun held => ?_
    split
    case isTrue => exact keeps_give (by simp)
    case isFalse => exact keeps_pure ()

theorem keeps_classDestroy {p : Ptr} (hp : p ≠ .obj (.number 256)) :
    Keeps Last (classDestroy p) := by
  cases p with
  | null => exact keeps_pure ()
  | err => exact keeps_pure ()
  | obj r => exact keeps_give (by simpa [eq_comm] using hp)

theorem keeps_cdevDel {p : Ptr} (hp : p ≠ .obj (.number 256)) : Keeps Last (cdevDel p) := by
  cases p with
  | null => exact keeps_die
  | err => exact keeps_die
  | obj r => exact keeps_give (by simpa [eq_comm] using hp)

/-- The unload gives one number back, the first. -/
theorem keeps_modExit : Keeps Last modExit := by
  have hdevices : Keeps Last
      (forUpTo maxDevices fun i => read (·.driverClass) >>= fun cls => deviceDestroy cls i) :=
    .forUpTo (fun i => (keeps_read _).bind fun cls => keeps_deviceDestroy cls i) _
  refine hdevices.bind fun _ => Keeps.bind_read fun s hs => ?_
  refine (Keeps.bind (keeps_classDestroy hs.cls) fun _ => Keeps.bind_read fun s hs => ?_) s hs
  exact (keeps_cdevDel hs.object).bind (fun _ => keeps_give (by decide)) s hs

/-! ### Loading -/

/-- Only calls that init does not check have failed, and the last number is there. -/
structure Up (s : Session) : Prop extends Last s where
  failed : ∀ c ∈ s.failed, c ∉ Module.openclose.checked

theorem keeps_deviceCreate (cls : Ptr) (i : Nat) : Keeps Up (deviceCreate k cls i) := by
  have hfail : ∀ s, Up s → Up (s.fail (.deviceCreate i)) := fun s hs =>
    ⟨⟨hs.held, hs.cls, hs.object⟩, List.forall_mem_cons.mpr ⟨by simp [Module.checked], hs.failed⟩⟩
  intro s hs
  cases cls with
  | null => exact hfail s hs
  | err => exact hfail s hs
  | obj r =>
      cases hk : k (.deviceCreate i) with
      | false =>
          rw [deviceCreate_obj, make_of_false hk]
          exact hfail s hs
      | true =>
          rw [deviceCreate_obj, make_of_true hk]
          exact ⟨⟨List.mem_cons_of_mem _ hs.held, hs.cls, hs.object⟩, hs.failed⟩

theorem ends_deviceCreate (cls : Ptr) (i : Nat) : Ends (deviceCreate k cls i) := by
  intro s
  cases cls with
  | null => exact ⟨_, rfl⟩
  | err => exact ⟨_, rfl⟩
  | obj r => cases hk : k (.deviceCreate i) <;> simp [hk]

/-- The loop over `device_create` runs to its end, whatever becomes of the devices. -/
theorem devices_up (n : Nat) (cls : Ptr) {s : Session} (hs : Up s) :
    ∃ s', forUpTo n (fun i => do let _ ← deviceCreate k cls i) s = (some (), s') ∧
      Up s' := by
  have hkeeps (i : Nat) : Keeps Up (do let _ ← deviceCreate k cls i) :=
    (keeps_deviceCreate cls i).bind fun _ => keeps_pure ()
  have hends (i : Nat) : Ends (do let _ ← deviceCreate k cls i) :=
    (ends_deviceCreate cls i).bind fun _ _ => ⟨(), rfl⟩
  obtain ⟨_, hend⟩ := Ends.forUpTo hends n s
  exact ⟨_, Prod.ext hend rfl, Keeps.forUpTo hkeeps n s hs⟩

/-- What is held when the device has been added. -/
abbrev added : Ledger Res :=
  (({} : Ledger Res).takeAll (numbers 257)).takeAll [.cdev] |>.takeAll [.registration]

theorem mem_added : .number 256 ∈ added.held := by simp [numbers]

/-- Once the device is added, nothing that fails is noticed. -/
theorem modInit_up (h : Module.openclose.allChecked k = true) :
    (modInit k {}).1 = some 0 ∧ Up (modInit k {}).2 := by
  simp only [Module.allChecked, Module.checked, List.all_cons, List.all_nil, Bool.and_eq_true] at h
  obtain ⟨hRegion, hAlloc, hAdd, -⟩ := h
  cases hClass : k .classCreate with
  | false =>
      have hup : Up { driverObject := .obj .cdev, driverClass := .err, failed := [.classCreate]
                      ledger := added } :=
        ⟨⟨mem_added, by simp, by simp⟩, by simp [Module.checked]⟩
      obtain ⟨s', hloop, hs'⟩ := devices_up (k := k) maxDevices .err hup
      have hrun : modInit k {} = (some 0, s') := by
        simp [modInit, ↓bind_run, allocChrdevRegion, hRegion, cdevAlloc, hAlloc, cdevAdd, follow,
          hAdd, classCreate, hClass, hloop]
      rw [hrun]
      exact ⟨rfl, hs'⟩
  | true =>
      have hup : Up { driverObject := .obj .cdev, driverClass := .obj .cls
                      ledger := added.takeAll [.cls] } :=
        ⟨⟨List.mem_cons_of_mem _ mem_added, by simp, by simp⟩, by simp⟩
      obtain ⟨s', hloop, hs'⟩ := devices_up (k := k) maxDevices (.obj .cls) hup
      have hrun : modInit k {} = (some 0, s') := by
        simp [modInit, ↓bind_run, allocChrdevRegion, hRegion, cdevAlloc, hAlloc, cdevAdd, follow,
          hAdd, classCreate, hClass, hloop, -deviceCreate_obj]
      rw [hrun]
      exact ⟨rfl, hs'⟩

/-- **openclose, loading**: after a failure that it notices, it reports success. -/
theorem modInit_loaded (k : Answers) : Loaded .openclose k (modInit k {}).1 (modInit k {}).2 := by
  cases hRegion : k .allocChrdevRegion with
  | false =>
      rw [modInit_region_fails hRegion]
      exact .of_clean .allocChrdevRegion (by decide) hRegion (by decide) rfl (by decide)
        (by decide) (by simp [Module.loadsWell, hRegion])
  | true =>
  cases hAlloc : k .cdevAlloc with
  | false =>
      obtain ⟨hr, hs⟩ := modInit_cdevAlloc_fails hRegion hAlloc
      exact .of_dirty .cdevAlloc (by decide) hAlloc hs (.inr (.inl hr))
        (by simp [Module.loadsWell, hRegion, hAlloc])
  | true =>
  cases hAdd : k .cdevAdd with
  | false =>
      obtain ⟨hr, hs⟩ := modInit_cdevAdd_fails hRegion hAlloc hAdd
      exact .of_dirty .cdevAdd (by decide) hAdd hs (.inr (.inl hr))
        (by simp [Module.loadsWell, hRegion, hAdd])
  | true =>
      have hall : Module.openclose.allChecked k = true := by
        simp [Module.allChecked, Module.checked, hRegion, hAlloc, hAdd]
      obtain ⟨hr, hup⟩ := modInit_up hall
      exact .of_up hall hup.failed hr (by simp [Module.loadsWell, hAlloc, hAdd])

/-- The last number is never given back. -/
theorem not_settled_modExit {s : Session} (hs : Up s) : ¬ (modExit s).2.ledger.Settled := by
  intro hset
  have hheld := (keeps_modExit s hs.toLast).held
  rw [hset.1] at hheld
  exact List.not_mem_nil hheld

end Openclose

end CAdvanced.ModuleLoad
