import CAdvanced.ModuleLoad.Hello
import CAdvanced.ModuleLoad.Mybuffer
import CAdvanced.ModuleLoad.MybufferSync
import CAdvanced.ModuleLoad.Openclose

/-!
# ModuleLoad — Balance

A run of loads and unloads is balanced exactly if the kernel's answers to every load that
runs, and to the load before every unload that runs, are those of `loadsWell` and
`unloadsWell`. Where a module stands is then told by the answers alone: it is there after a
load whose checked calls have all succeeded.
-/

namespace CAdvanced.ModuleLoad

open CAdvanced.Sequential

variable {m : Module}

/-! ## One load, one unload -/

theorem init_loaded (m : Module) (k : Answers) : Loaded m k (m.init k {}).1 (m.init k {}).2 := by
  cases m with
  | mybuffer => exact Mybuffer.modInit_loaded k
  | mybufferSync => exact MybufferSync.templateInit_loaded k
  | openclose => exact Openclose.modInit_loaded k
  | hello => exact Hello.modInit_loaded k

theorem exit_settled_iff {k : Answers} (h : m.allChecked k = true) :
    (m.exit (m.init k {}).2).2.ledger.Settled ↔ m.unloadsWell k = true := by
  cases m with
  | mybuffer =>
      rw [Module.init, Mybuffer.modInit_up h]
      change (Mybuffer.modExit _).2.ledger.Settled ↔ k .classCreate = true
      cases hClass : k .classCreate with
      | false => simpa using Mybuffer.not_settled_modExit _
      | true => simpa using (Mybuffer.modExit_up _).2
  | mybufferSync =>
      have hStorage : k .kcalloc = true := of_allChecked h (by decide)
      have hRegion : k .allocChrdevRegion = true := of_allChecked h (by decide)
      have hAlloc : k .cdevAlloc = true := of_allChecked h (by decide)
      have hAdd : k .cdevAdd = true := of_allChecked h (by decide)
      have hClass : k .classCreate = true := of_allChecked h (by decide)
      rw [Module.init, MybufferSync.templateInit_up hRegion hAlloc hAdd hClass, hStorage]
      exact iff_of_false (MybufferSync.not_settled_templateExit _) Bool.false_ne_true
  | openclose =>
      simp only [Module.exit, Module.init, Module.unloadsWell, Bool.false_eq_true, iff_false]
      exact Openclose.not_settled_modExit (Openclose.modInit_up h).2
  | hello =>
      rw [Module.init, Hello.modInit_up h, Module.exit, Hello.modExit_up]
      exact iff_of_true ⟨rfl, rfl⟩ rfl

/-- An unload that leaves nothing behind comes to its end. -/
theorem exit_ends {k : Answers} (h : m.allChecked k = true) (hw : m.unloadsWell k = true) :
    (m.exit (m.init k {}).2).1 = some () := by
  cases m with
  | mybuffer =>
      have hclass : k .classCreate = true := hw
      rw [Module.init, Mybuffer.modInit_up h, hclass]
      exact (Mybuffer.modExit_up _).1
  | mybufferSync => exact absurd hw Bool.false_ne_true
  | openclose => exact absurd hw Bool.false_ne_true
  | hello => rw [Module.init, Hello.modInit_up h, Module.exit, Hello.modExit_up]

/-! ## Runs -/

/-- The answers of the kernel to the loads and unloads that run are good ones; `up` are the
answers to the load of the module, while it is there. -/
def Well (m : Module) : Option Answers → List Event → Prop
  | _, [] => True
  | none, .load k :: es =>
      m.loadsWell k = true ∧ Well m (if m.allChecked k then some k else none) es
  | none, .unload :: es => Well m none es
  | some up, .load _ :: es => Well m (some up) es
  | some up, .unload :: es => m.unloadsWell up = true ∧ Well m none es

/-- The answers tell the status. -/
inductive Follows (m : Module) : Option Answers → Status → Prop where
  | absent : Follows m none .absent
  | live {k : Answers} (h : m.allChecked k = true) : Follows m (some k) (.live (m.init k {}).2)

/-- A load that is fine leaves the module there if all checked calls have succeeded, and
else not. -/
theorem follows_load {k : Answers} (hw : m.loadsWell k = true) :
    Follows m (if m.allChecked k then some k else none)
      (.ofInit (m.init k {}).1 (m.init k {}).2) := by
  have hload := init_loaded m k
  cases hall : m.allChecked k with
  | true =>
      rw [hload.up hall]
      exact .live hall
  | false =>
      obtain ⟨⟨e, hr, he⟩, -⟩ := hload.fine.mpr hw (hload.failed.mpr hall)
      rw [hr]
      simpa [Status.ofInit, he] using Follows.absent

theorem fine_iff (es : List Event) {up : Option Answers} {st : Status} (h : Follows m up st) :
    (∀ r ∈ reports m st es, r.Fine m) ↔ Well m up es := by
  induction es generalizing up st with
  | nil => simp [reports, Well]
  | cons e es ih =>
      cases h with
      | absent =>
          cases e with
          | unload => exact ih .absent
          | load k =>
              simp only [reports, step, Option.toList_some, List.cons_append, List.nil_append,
                List.forall_mem_cons, Well]
              rw [(init_loaded m k).fine]
              exact and_congr_right fun hw => ih (follows_load hw)
      | @live k hall =>
          cases e with
          | load k' => exact ih (.live hall)
          | unload =>
              simp only [reports, step, Option.toList_some, List.cons_append, List.nil_append,
                List.forall_mem_cons, Well]
              rw [show (Report.exit (m.exit (m.init k {}).2).2).Fine m ↔ m.unloadsWell k = true from
                exit_settled_iff hall]
              refine and_congr_right fun hw => ?_
              rw [exit_ends hall hw]
              exact ih .absent

/-- **Balance**: a run is balanced exactly if every load that runs is answered well, and so
was the load before every unload that runs. -/
theorem balanced_iff (m : Module) (es : List Event) : Balanced m es ↔ Well m none es :=
  fine_iff es .absent

/-- None of the modules is balanced under every run: mybuffer reports success when there is
no memory for its device, mybuffer_sync and openclose do not survive a load without failures
and an unload, and hello leaves its device behind when its class is refused. -/
theorem not_balanced : ¬ ∃ m, ∀ es, Balanced m es := by
  rintro ⟨m, h⟩
  have hwell (es : List Event) : Well m none es := (fine_iff es .absent).mp (h es)
  cases m with
  | mybuffer => exact absurd (hwell [.load (· != .cdevAlloc)]).1 (by decide)
  | mybufferSync => exact absurd (hwell [.load fun _ => true, .unload]).2.1 (by decide)
  | openclose => exact absurd (hwell [.load fun _ => true, .unload]).2.1 (by decide)
  | hello => exact absurd (hwell [.load (· != .classCreate)]).1 (by decide)

end CAdvanced.ModuleLoad
