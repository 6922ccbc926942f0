import CAdvanced.ModuleLoad.Model

/-!
# ModuleLoad — Outcomes

Which loads and unloads of the modules are balanced: exactly those whose kernel calls
answer as `loadsWell` and `unloadsWell` say. What goes wrong elsewhere: mybuffer and
openclose report success after a failed call; mybuffer and mybuffer_sync keep their buffers
when there is no device number; a failed class leaves the device of mybuffer_sync and hello
in the kernel's table; mybuffer_sync never frees its buffer, and openclose gives back one
device number of 257.
-/

namespace CAdvanced.ModuleLoad

open CAdvanced.Sequential CAdvanced.Sequential.Code

namespace Module

/-- Every call that the init function checks succeeds. -/
def allChecked (m : Module) (k : Answers) : Bool := m.checked.all k

/-- The answers with which a load is fine. -/
def loadsWell : Module → Answers → Bool
  | .mybuffer, k => allChecked .mybuffer k
  | .mybufferSync, k =>
      if k .kcalloc then
        k .allocChrdevRegion && (!(k .cdevAlloc && k .cdevAdd) || k .classCreate)
      else !(k .allocChrdevRegion && k .cdevAlloc && k .cdevAdd)
  | .openclose, k => !k .allocChrdevRegion || (k .cdevAlloc && k .cdevAdd)
  | .hello, k =>
      !(k .allocChrdevRegion && k .cdevAlloc && k .cdevAdd) ||
        (k .classCreate && k (.deviceCreate 0))

/-- The answers to a load with which the unload after it is fine. -/
def unloadsWell : Module → Answers → Bool
  | .mybuffer, k => k .classCreate
  | .mybufferSync, _ => false
  | .openclose, _ => false
  | .hello, _ => true

end Module

/-! ## What an init function leaves -/

/-- What there is to know of a load with the answers `k`, of its result and of what it left. -/
structure Loaded (m : Module) (k : Answers) (r : Option Int) (s : Session) : Prop where
  failed : s.Failed m ↔ m.allChecked k = false
  up : m.allChecked k = true → r = some 0
  fine : (Report.init r s).Fine m ↔ m.loadsWell k = true

variable {m : Module} {k : Answers} {r : Option Int} {s : Session}

theorem of_allChecked {c : Call} (h : m.allChecked k = true) (hc : c ∈ m.checked) : k c = true :=
  List.all_eq_true.mp h c hc

theorem allChecked_of_false {c : Call} (hc : c ∈ m.checked) (hk : k c = false) :
    m.allChecked k = false := by
  rw [Module.allChecked, List.all_eq_false]
  exact ⟨c, hc, by simp [hk]⟩

/-- A load in which the checked call `c` failed, and which cleaned up. -/
theorem Loaded.of_clean (c : Call) (hc : c ∈ m.checked) (hk : k c = false) (hs : c ∈ s.failed)
    {e : Int} (hr : r = some e) (he : e ≠ 0) (hset : s.ledger.Settled)
    (hw : m.loadsWell k = true) : Loaded m k r s := by
  have hall := allChecked_of_false hc hk
  have hfailed : s.Failed m := ⟨c, hs, hc⟩
  refine ⟨by simp [hfailed, hall], by simp [hall], ?_⟩
  exact ⟨fun _ => hw, fun _ _ => ⟨⟨e, hr, he⟩, hset⟩⟩

/-- A load in which the checked call `c` failed, and which did not fail, or not clean up. -/
theorem Loaded.of_dirty (c : Call) (hc : c ∈ m.checked) (hk : k c = false) (hs : c ∈ s.failed)
    (h : r = none ∨ r = some 0 ∨ ¬ s.ledger.Settled) (hw : m.loadsWell k = false) :
    Loaded m k r s := by
  have hall := allChecked_of_false hc hk
  have hfailed : s.Failed m := ⟨c, hs, hc⟩
  refine ⟨by simp [hfailed, hall], by simp [hall], ?_⟩
  rw [hw]
  refine iff_of_false ?_ Bool.false_ne_true
  intro hfine
  obtain ⟨⟨e, hr, he⟩, hset⟩ := hfine hfailed
  rcases h with h | h | h
  · cases h.symm.trans hr
  · cases h.symm.trans hr
    exact he rfl
  · exact h hset

/-- A load in which no checked call failed. -/
theorem Loaded.of_up (hall : m.allChecked k = true) (hs : ∀ c ∈ s.failed, c ∉ m.checked)
    (hr : r = some 0) (h : m.loadsWell k = true) : Loaded m k r s := by
  have hfailed : ¬ s.Failed m := fun ⟨c, hc, hcm⟩ => hs c hc hcm
  exact ⟨by simp [hfailed, hall], fun _ => hr, by simp [Report.Fine, hfailed, h]⟩

end CAdvanced.ModuleLoad
