import CAdvanced.HelloCounted.Model
import CAdvanced.Interleave.Threads
import Mathlib.Algebra.Order.BigOperators.Group.List

/-!
# HelloCounted — Counters

The counters do what they are there for exactly as long as no instance is opened while
another one is open. The global then points to the counter of the one open instance,
which holds the offset of that instance. An open that overlaps makes the global forget a
counter that has not been freed, and nothing ever frees it (`Lost`).
-/

namespace CAdvanced.HelloCounted

open Interleave System Heap

variable {ι : Type} [DecidableEq ι]

/-! ## What the calls do to the last counter -/

/-- The global points to the counter that was allocated last. -/
def Latest (d : Device ι) : Prop :=
  (d.counters = [] ∧ d.counted = none)
    ∨ ∃ init last, d.counters = init ++ [last] ∧ d.counted = some init.length

/-- What a call does, when the global points to the last counter. -/
inductive Effect (junk : Nat → Int) (d : Device ι) : Call ι → Device ι → Prop
  | driverOpen {i : ι} (hi : (d.instances i).status = .fresh) :
      Effect junk d (.driverOpen i) {
        counters := d.counters ++ [Cell.new 0]
        counted := some d.counters.length
        instances := Function.update d.instances i ⟨.opened, (d.instances i).offset⟩ }
  | readHello {i : ι} {count notCopied : Nat} {init : List (Cell Int)} {last : Cell Int}
      {r : Reply} (hi : (d.instances i).status = .opened) (hd : d.counters = init ++ [last])
      (hc : d.counter = some last)
      (hr : r = readHello junk last (d.instances i).offset count notCopied) :
      Effect junk d (.readHello i count notCopied) {
        counters := init ++ [r.counter]
        counted := some init.length
        instances := Function.update d.instances i ⟨.opened, r.offset⟩ }
  | driverClose {i : ι} {init : List (Cell Int)} {last : Cell Int}
      (hi : (d.instances i).status = .opened) (hd : d.counters = init ++ [last]) :
      Effect junk d (.driverClose i) {
        counters := init ++ [last.free]
        counted := some init.length
        instances := Function.update d.instances i ⟨.closed, (d.instances i).offset⟩ }

omit [DecidableEq ι] in
/-- The counter that a read or a close finds is the last one. -/
theorem Latest.counter_eq {d : Device ι} (h : Latest d) {c : Cell Int}
    (hc : d.counter = some c) :
    ∃ init, d.counters = init ++ [c] ∧ d.counted = some init.length
      ∧ ∀ c', (d.setCounter c').counters = init ++ [c'] := by
  rcases h with ⟨-, hnone⟩ | ⟨init, last, hd, hcounted⟩
  · simp [Device.counter, hnone] at hc
  · have hlast : last = c := by
      simpa [Device.counter, hcounted, hd] using hc
    subst hlast
    refine ⟨init, hd, hcounted, fun c' => ?_⟩
    simp [Device.setCounter, hcounted, hd]

theorem next_effect {junk : Nat → Int} {d d' : Device ι} {l : Call ι} (hL : Latest d)
    (h : next junk l d = some d') : Effect junk d l d' := by
  cases l with
  | driverOpen i =>
      simp only [next, Option.ite_none_right_eq_some, Option.some.injEq] at h
      obtain ⟨hi, rfl⟩ := h
      exact .driverOpen hi
  | readHello i count notCopied =>
      simp only [next, Option.ite_none_right_eq_some, Option.map_eq_some_iff] at h
      obtain ⟨hi, c, hc, rfl⟩ := h
      obtain ⟨init, hd, hcounted, hset⟩ := hL.counter_eq hc
      show Effect junk d (.readHello i count notCopied) ⟨(d.setCounter _).counters, d.counted, _⟩
      rw [hset, hcounted]
      exact .readHello hi hd hc rfl
  | driverClose i =>
      simp only [next, Option.ite_none_right_eq_some, Option.map_eq_some_iff] at h
      obtain ⟨hi, c, hc, rfl⟩ := h
      obtain ⟨init, hd, hcounted, hset⟩ := hL.counter_eq hc
      show Effect junk d (.driverClose i) ⟨(d.setCounter _).counters, d.counted, _⟩
      rw [hset, hcounted]
      exact .driverClose hi hd

/-! ## What a read does to its counter -/

theorem readHello_frees (junk : Nat → Int) (c : Cell Int) (offset : Int)
    (count notCopied : Nat) :
    (readHello junk c offset count notCopied).counter.frees = c.frees := by
  unfold readHello
  dsimp only
  split <;> simp

theorem readHello_offset (junk : Nat → Int) (c : Cell Int) (offset : Int)
    (count notCopied : Nat) :
    (readHello junk c offset count notCopied).offset
      = offset + (readHello junk c offset count notCopied).ret := by
  unfold readHello
  dsimp only
  split
  · exact (Int.add_zero _).symm
  · rfl

theorem message_length_eq (n : Int) :
    (message n).toList.length = 32 + (toString n).toList.length + 15 := by
  have hbefore : ("Hello from grp20. You have read ").toList.length = 32 := by decide +kernel
  have hafter : (" bytes so far.\n").toList.length = 15 := by decide +kernel
  have happend : ∀ a b c : String,
      (a ++ b ++ c).toList.length = a.toList.length + b.toList.length + c.toList.length := by
    intro a b c
    rw [String.toList_append, String.toList_append, List.length_append, List.length_append]
  have h := happend "Hello from grp20. You have read " (toString n) " bytes so far.\n"
  rw [hbefore, hafter] at h
  exact h

/-- With a number of at most three digits the text has at most 50 characters. -/
theorem message_length {n : Int} (h0 : 0 ≤ n) (hn : n < 1000) :
    (message n).toList.length ≤ 50 := by
  have hdigits : (toString n).toList.length ≤ 3 := by
    rw [Int.toString_eq_repr, Int.repr_eq_if, if_pos h0, Nat.toList_repr,
      Nat.length_toDigits_le_iff (by decide) (by decide)]
    omega
  have heq := message_length_eq n
  omega

/-- A read of an instance whose counter says how far it is: it is so afterwards, and the
text is too short for the counter to overflow. -/
theorem readHello_live {junk : Nat → Int} {c : Cell Int} {offset : Int}
    {count notCopied : Nat} (hc : c.Live) (hvalue : c.value = offset) (h0 : 0 ≤ offset)
    (hlt : offset < 100) :
    (readHello junk c offset count notCopied).counter.Live
      ∧ (readHello junk c offset count notCopied).counter.value
        = (readHello junk c offset count notCopied).offset
      ∧ (readHello junk c offset count notCopied).offset < 100 := by
  have hlength := message_length h0 (by omega)
  unfold readHello
  dsimp only
  rw [hc.use_eq, hc.load_eq, hvalue]
  split
  · exact ⟨hc, hvalue, hlt⟩
  · have hle : min (message offset).toList.length count - notCopied ≤ 50 := by omega
    generalize min (message offset).toList.length count - notCopied = copied at hle
    refine ⟨hc.store _, ?_, ?_⟩
    · show (offset + copied).bmod (2 ^ 32) = offset + copied
      rw [Int.bmod_def]
      omega
    · show offset + copied < 100
      omega

/-! ## In every run -/

/-- Whether an instance is open. -/
def Instance.isOpen (x : Instance) : Nat := if x.status = .opened then 1 else 0

variable [Fintype ι]

/-- The books of the device, in every run: every counter has been allocated by an open, and
every `kfree` is that of a close, so the counters that have not been freed are as many as
the open instances, if none was freed twice. -/
structure Books (d : Device ι) : Prop where
  latest : Latest d
  balance : total Instance.isOpen d.instances + (d.counters.map Cell.frees).sum
    = d.counters.length
  fresh : ∀ i, (d.instances i).status = .fresh → (d.instances i).offset = 0

omit [DecidableEq ι] in
theorem books_start : Books (start ι) where
  latest := .inl ⟨rfl, rfl⟩
  balance := by
    have hnone : total Instance.isOpen (start ι).instances = 0 := total_eq_zero fun _ => rfl
    rw [hnone]
    rfl
  fresh := fun _ _ => rfl

theorem Books.step {junk : Nat → Int} {d d' : Device ι} {l : Call ι} (hB : Books d)
    (h : next junk l d = some d') : Books d' := by
  have hbalance := hB.balance
  have hfresh : ∀ {i : ι} {x : Instance}, x.status ≠ .fresh → ∀ j,
      (Function.update d.instances i x j).status = .fresh →
      (Function.update d.instances i x j).offset = 0 := by
    intro i x hx j hj
    by_cases hji : j = i
    · rw [hji, Function.update_self] at hj
      exact absurd hj hx
    · rw [Function.update_of_ne hji] at hj ⊢
      exact hB.fresh j hj
  cases next_effect hB.latest h with
  | @driverOpen i hi =>
      have htotal := total_update Instance.isOpen d.instances i ⟨.opened, (d.instances i).offset⟩
      rw [show (d.instances i).isOpen = 0 by simp [Instance.isOpen, hi]] at htotal
      refine ⟨.inr ⟨d.counters, _, rfl, rfl⟩, ?_, hfresh nofun⟩
      simp only [List.map_append, List.sum_append, List.length_append]
      simp [Instance.isOpen, Cell.new] at htotal ⊢
      omega
  | @readHello i count notCopied init last r hi hd hc hr =>
      have htotal := total_update Instance.isOpen d.instances i ⟨.opened, r.offset⟩
      rw [show (d.instances i).isOpen = 1 by simp [Instance.isOpen, hi]] at htotal
      have hfrees : r.counter.frees = last.frees := by rw [hr, readHello_frees]
      refine ⟨.inr ⟨init, _, rfl, rfl⟩, ?_, hfresh nofun⟩
      rw [hd] at hbalance
      simp only [List.map_append, List.sum_append, List.length_append] at hbalance ⊢
      simp [Instance.isOpen, hfrees] at htotal hbalance ⊢
      omega
  | @driverClose i init last hi hd =>
      have htotal := total_update Instance.isOpen d.instances i ⟨.closed, (d.instances i).offset⟩
      rw [show (d.instances i).isOpen = 1 by simp [Instance.isOpen, hi]] at htotal
      refine ⟨.inr ⟨init, _, rfl, rfl⟩, ?_, hfresh nofun⟩
      rw [hd] at hbalance
      simp only [List.map_append, List.sum_append, List.length_append] at hbalance ⊢
      simp [Instance.isOpen, Cell.free] at htotal hbalance ⊢
      omega

theorem books_inductive {junk : Nat → Int} : (device ι junk).Inductive Books :=
  ⟨books_start, Books.step⟩

/-- What a step delivers through instance `i`. -/
def returned (junk : Nat → Int) (i : ι) : Call ι → Device ι → Option Int
  | .readHello j count notCopied, d =>
      if j = i then
        d.counter.map fun c => (readHello junk c (d.instances i).offset count notCopied).ret
      else none
  | _, _ => none

theorem offset_step {junk : Nat → Int} {d d' : Device ι} {l : Call ι} (hB : Books d)
    (hnext : next junk l d = some d') (i : ι) :
    (d'.instances i).offset = (d.instances i).offset + (returned junk i l d).getD 0 := by
  cases next_effect hB.latest hnext with
  | @driverOpen j hj =>
      by_cases hji : i = j
      · subst hji
        simp [returned]
      · simp [returned, Function.update_of_ne hji]
  | @readHello j count notCopied init last r hj hd hc hr =>
      by_cases hji : i = j
      · subst hji
        simp [returned, hc, hr, readHello_offset]
      · simp [returned, Function.update_of_ne hji, Ne.symm hji]
  | @driverClose j init last hj hd =>
      by_cases hji : i = j
      · subst hji
        simp [returned]
      · simp [returned, Function.update_of_ne hji]

/-- What a run has delivered through instance `i`. -/
def delivered (junk : Nat → Int) (i : ι) (ls : List (Call ι)) : Int :=
  ((device ι junk).trace (returned junk i) ls (start ι)).sum

/-- **The offset of an instance** is what has been delivered through it. -/
theorem offset_eq {junk : Nat → Int} {ls : List (Call ι)} {d : Device ι}
    (h : (device ι junk).Reaches ls d) (i : ι) :
    (d.instances i).offset = delivered junk i ls := by
  have hstart : ((start ι).instances i).offset = 0 := rfl
  have hsum : (d.instances i).offset = ((start ι).instances i).offset + delivered junk i ls := by
    refine exec_sum (S := device ι junk) (g := fun d => (d.instances i).offset)
      books_inductive ?_ books_start h
    intro l d d' hB hnext
    exact offset_step hB hnext i
  rw [hsum, hstart, Int.zero_add]

/-! ## Without an overlap -/

/-- The call opens an instance while another one is open. -/
def overlaps : Call ι → Device ι → Bool
  | .driverOpen _, d => ∃ i, (d.instances i).status = .opened
  | _, _ => false

/-- At most one instance is open, and every counter but its own has been freed once; its
own says how far it is. -/
inductive Solo (d : Device ι) : Prop
  | idle (hnone : ∀ i, (d.instances i).status ≠ .opened) (hdone : ∀ c ∈ d.counters, c.Done)
  | busy {i : ι} {init : List (Cell Int)} {last : Cell Int}
      (hi : (d.instances i).status = .opened)
      (honly : ∀ j, (d.instances j).status = .opened → j = i)
      (hd : d.counters = init ++ [last]) (hdone : ∀ c ∈ init, c.Done) (hlive : last.Live)
      (hvalue : last.value = (d.instances i).offset) (h0 : 0 ≤ (d.instances i).offset)
      (hlt : (d.instances i).offset < 100)

theorem Solo.step {junk : Nat → Int} {d d' : Device ι} {l : Call ι} (hB : Books d)
    (hS : Solo d) (h : next junk l d = some d') (hl : overlaps l d = false) : Solo d' := by
  cases next_effect hB.latest h with
  | @driverOpen i hi =>
      have hnone : ∀ j, (d.instances j).status ≠ .opened := by
        intro j hj
        have hno := of_decide_eq_false hl
        exact hno ⟨j, hj⟩
      have hdone : ∀ c ∈ d.counters, c.Done := by
        cases hS with
        | idle _ hdone => exact hdone
        | busy hj => exact absurd hj (hnone _)
      refine .busy (i := i) (by simp) ?_ rfl hdone (Cell.live_new 0) ?_ ?_ ?_
      · intro j hj
        by_contra hji
        dsimp only at hj
        rw [Function.update_of_ne hji] at hj
        exact hnone j hj
      all_goals simp [hB.fresh i hi, Cell.new]
  | @readHello i count notCopied init last r hi hd hc hr =>
      cases hS with
      | idle hnone => exact absurd hi (hnone i)
      | @busy j init' last' hj honly hd' hdone hlive hvalue h0 hlt =>
          have hij := honly i hi
          subst hij
          obtain ⟨rfl, hlast⟩ := List.append_inj' (hd.symm.trans hd') rfl
          obtain rfl : last = last' := (List.cons.inj hlast).1
          obtain ⟨hlive', hvalue', hlt'⟩ : r.counter.Live ∧ r.counter.value = r.offset
              ∧ r.offset < 100 := by
            rw [hr]
            exact readHello_live hlive hvalue h0 hlt
          have hoffset := readHello_offset junk last (d.instances i).offset count notCopied
          rw [← hr] at hoffset
          refine .busy (i := i) (by simp) ?_ rfl hdone hlive' (by simpa using hvalue') ?_
            (by simpa using hlt')
          · intro k hk
            by_contra hki
            dsimp only at hk
            rw [Function.update_of_ne hki] at hk
            exact hki (honly k hk)
          · dsimp only
            rw [Function.update_self]
            show 0 ≤ r.offset
            omega
  | @driverClose i init last hi hd =>
      cases hS with
      | idle hnone => exact absurd hi (hnone i)
      | @busy j init' last' hj honly hd' hdone hlive hvalue h0 hlt =>
          have hij := honly i hi
          subst hij
          obtain ⟨rfl, hlast⟩ := List.append_inj' (hd.symm.trans hd') rfl
          obtain rfl : last = last' := (List.cons.inj hlast).1
          refine .idle ?_ ?_
          · intro k hk
            by_cases hki : k = i
            · rw [hki] at hk
              simp at hk
            · dsimp only at hk
              rw [Function.update_of_ne hki] at hk
              exact hki (honly k hk)
          · exact List.forall_mem_append.mpr ⟨hdone, List.forall_mem_singleton.mpr hlive.free⟩

/-! ## After an overlap -/

/-- A counter that has not been freed is no longer the last one. -/
def Lost (d : Device ι) : Prop :=
  ∃ init last, d.counters = init ++ [last] ∧ ∃ c ∈ init, c.frees = 0

/-- An open that overlaps loses a counter: fewer have been freed than allocated. -/
theorem lost_of_overlaps {junk : Nat → Int} {d d' : Device ι} {l : Call ι} (hB : Books d)
    (h : next junk l d = some d') (hl : overlaps l d = true) : Lost d' := by
  cases next_effect hB.latest h with
  | @driverOpen i hi =>
      obtain ⟨j, hj⟩ := of_decide_eq_true hl
      have hopen := le_total Instance.isOpen d.instances j
      rw [show (d.instances j).isOpen = 1 by simp [Instance.isOpen, hj]] at hopen
      refine ⟨d.counters, _, rfl, ?_⟩
      by_contra hnone
      have hfreed : ∀ k ∈ d.counters.map Cell.frees, 1 ≤ k := by
        intro k hk
        obtain ⟨c, hc, rfl⟩ := List.mem_map.mp hk
        by_contra hzero
        exact hnone ⟨c, hc, by omega⟩
      have hsum := List.length_le_sum_of_one_le _ hfreed
      have hbalance := hB.balance
      rw [List.length_map] at hsum
      omega
  | _ => cases hl

/-- **A lost counter is never freed.** -/
theorem Lost.step {junk : Nat → Int} {d d' : Device ι} {l : Call ι} (hB : Books d)
    (hL : Lost d) (h : next junk l d = some d') : Lost d' := by
  obtain ⟨init, last, hd, c, hc, hfrees⟩ := hL
  cases next_effect hB.latest h with
  | driverOpen hi =>
      refine ⟨d.counters, _, rfl, c, ?_, hfrees⟩
      rw [hd]
      exact List.mem_append_left _ hc
  | readHello hi hd' =>
      obtain ⟨rfl, -⟩ := List.append_inj' (hd.symm.trans hd') rfl
      exact ⟨init, _, rfl, c, hc, hfrees⟩
  | driverClose hi hd' =>
      obtain ⟨rfl, -⟩ := List.append_inj' (hd.symm.trans hd') rfl
      exact ⟨init, _, rfl, c, hc, hfrees⟩

/-! ## The promise -/

/-- What the text of a read says. -/
def printedCount (junk : Nat → Int) (d : Device ι) : Option Int :=
  d.counter.map (Cell.load junk)

/-- What the counters are there for, in a run `ls` that has led to `d`. -/
structure Promise (junk : Nat → Int) (ls : List (Call ι)) (d : Device ι) : Prop where
  used : ∀ c ∈ d.counters, c.lateUses = 0
  freed : ∀ c ∈ d.counters, c.frees ≤ 1
  closed : (∀ i, (d.instances i).status ≠ .opened) → ∀ c ∈ d.counters, c.frees = 1
  printed : ∀ pre post i count notCopied before, ls = pre ++ .readHello i count notCopied :: post →
    (device ι junk).Reaches pre before →
      printedCount junk before = some (delivered junk i pre)

omit [DecidableEq ι] [Fintype ι] in
theorem solo_start : Solo (start ι) := .idle nofun nofun

/-- Without an overlap there is at most one open instance. -/
theorem solo_of_count {junk : Nat → Int} {ls : List (Call ι)} {d : Device ι}
    (h : (device ι junk).Reaches ls d) (hno : (device ι junk).count overlaps ls = 0) :
    Solo d := by
  have hboth : Books d ∧ Solo d := by
    apply exec_of_tally_eq_zero (S := device ι junk) (I := fun d => Books d ∧ Solo d) _
      ⟨books_start, solo_start⟩ h hno
    intro l s t hs hnext hl
    exact ⟨hs.1.step hnext, hs.2.step hs.1 hnext hl⟩
  exact hboth.2

/-- With one, a counter has been lost. -/
theorem lost_of_count {junk : Nat → Int} {ls : List (Call ι)} {d : Device ι}
    (h : (device ι junk).Reaches ls d) (hbad : (device ι junk).count overlaps ls ≠ 0) :
    Lost d := by
  induction ls using List.reverseRecOn generalizing d with
  | nil => exact absurd rfl hbad
  | append_singleton ls l ih =>
      obtain ⟨s, hs, hl⟩ := exec_append_eq_some.mp h
      have hnext : next junk l s = some d := exec_singleton.symm.trans hl
      have hB : Books s := books_inductive.reachable ⟨ls, hs⟩
      have hcount : (device ι junk).count overlaps (ls ++ [l])
          = (device ι junk).count overlaps ls + (device ι junk).tally overlaps [l] s :=
        tally_append hs
      by_cases hls : (device ι junk).count overlaps ls = 0
      · refine lost_of_overlaps hB hnext ?_
        by_contra hno
        rw [hcount, hls, tally_cons hnext, Bool.not_eq_true _ |>.mp hno] at hbad
        exact hbad rfl
      · exact (ih hs hls).step hB hnext

/-- The promise, without an overlap. -/
theorem Solo.promise {junk : Nat → Int} {ls : List (Call ι)} {d : Device ι}
    (h : (device ι junk).Reaches ls d) (hno : (device ι junk).count overlaps ls = 0) :
    Promise junk ls d := by
  have hS := solo_of_count h hno
  have hsound : ∀ c ∈ d.counters, c.Sound := by
    cases hS with
    | idle _ hdone => exact fun c hc => (hdone c hc).sound
    | busy _ _ hd hdone hlive =>
        rw [hd]
        exact List.forall_mem_append.mpr ⟨fun c hc => (hdone c hc).sound,
          List.forall_mem_singleton.mpr hlive.sound⟩
  refine ⟨fun c hc => (hsound c hc).lateUses, fun c hc => (hsound c hc).frees, ?closed, ?printed⟩
  case closed =>
    intro hnone
    cases hS with
    | idle _ hdone => exact fun c hc => (hdone c hc).frees
    | busy hi => exact absurd hi (hnone _)
  case printed =>
    intro pre post i count notCopied before hls hbefore
    subst hls
    obtain ⟨s, hs, hrest⟩ := exec_append_eq_some.mp h
    obtain rfl : s = before := Option.some.inj (hs.symm.trans hbefore)
    obtain ⟨t, hnext, -⟩ := exec_cons_eq_some.mp hrest
    have hpre : (device ι junk).count overlaps pre = 0 := by
      rw [System.count, tally_append hs] at hno
      exact Nat.eq_zero_of_add_eq_zero_right hno
    have hoffset := offset_eq hs i
    have hlatest := (books_inductive.reachable (Reaches.reachable hs)).latest
    have hstep : next junk (.readHello i count notCopied) s = some t := hnext
    cases next_effect hlatest hstep with
    | readHello hi hd hc hr =>
        cases solo_of_count hs hpre with
        | idle hnone => exact absurd hi (hnone i)
        | busy hj honly hd' hdone hlive hvalue =>
            obtain ⟨-, hlast⟩ := List.append_inj' (hd.symm.trans hd') rfl
            obtain rfl := (List.cons.inj hlast).1
            obtain rfl := honly i hi
            rw [printedCount, hc, Option.map_some, hlive.load_eq, hvalue, hoffset]

/-- **The counters**: in a run where no instance is opened while another one is open they
keep their promise at every step, and a run that ends with every instance closed has kept
it only if no instance was. -/
theorem counters_iff (junk : Nat → Int) {ls : List (Call ι)} {d : Device ι}
    (h : (device ι junk).Reaches ls d) :
    ((device ι junk).count overlaps ls = 0 → Promise junk ls d)
      ∧ ((∀ i, (d.instances i).status ≠ .opened) →
        (Promise junk ls d ↔ (device ι junk).count overlaps ls = 0)) := by
  refine ⟨Solo.promise h, fun hnone => ⟨fun hpromise => ?_, Solo.promise h⟩⟩
  by_contra hbad
  obtain ⟨init, last, hd, c, hc, hfrees⟩ := lost_of_count h hbad
  have hfreed := hpromise.closed hnone c (by rw [hd]; exact List.mem_append_left _ hc)
  omega

/-- Two instances, one after the other, with a read of each. -/
theorem counters_iff_one_by_one :
    ∃ ls d, (device (Fin 2) fun _ => 0).Reaches ls d ∧ d.counters.length = 2
      ∧ Promise (fun _ => 0) ls d := by
  let ls : List (Call (Fin 2)) :=
    [.driverOpen 0, .readHello 0 64 0, .driverClose 0,
      .driverOpen 1, .readHello 1 64 0, .driverClose 1]
  obtain ⟨d, hrun, hd⟩ := Option.any_eq_true _ _ |>.mp
    (show ((device (Fin 2) fun _ => 0).exec ls (start (Fin 2))).any (fun d =>
      d.counters.length = 2 ∧ ∀ i, (d.instances i).status ≠ .opened) = true by decide +kernel)
  obtain ⟨hlength, hclosed⟩ := of_decide_eq_true hd
  have hno : (device (Fin 2) fun _ => 0).count overlaps ls = 0 := by decide +kernel
  exact ⟨ls, d, hrun, hlength, ((counters_iff _ hrun).2 hclosed).mpr hno⟩

/-- Two instances that are open at the same time: both closes free the counter of the
second. -/
theorem not_counters :
    ¬ ∀ junk ls (d : Device (Fin 2)), (device (Fin 2) junk).Reaches ls d →
      Promise junk ls d := by
  intro hall
  obtain ⟨d, hrun, hd⟩ := Option.any_eq_true _ _ |>.mp
    (show ((device (Fin 2) fun _ => 0).exec
        [.driverOpen 0, .driverOpen 1, .driverClose 0, .driverClose 1] (start (Fin 2))).any
      (fun d => d.counters = [⟨0, 0, 0⟩, ⟨0, 2, 0⟩]) = true by decide +kernel)
  have hcounters := of_decide_eq_true hd
  have hfreed := (hall _ _ d hrun).freed ⟨0, 2, 0⟩ (by rw [hcounters]; simp)
  exact absurd hfreed (by decide)

end CAdvanced.HelloCounted
