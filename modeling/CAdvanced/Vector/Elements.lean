import CAdvanced.CInt.Wrap
import Mathlib.Data.List.Range
import Mathlib.Logic.Function.Basic

/-!
# Vector — Elements

The vector of `vector.c`. Every `add_element` asks `realloc` for room for one `int`, and
writes behind it: the `k`-th element goes to the place `k + 1`, while `main` looks for it at
the place `k`. Only the number of the elements comes out right.

The places of `data` go on in both directions, since the code does not keep to its block.
What stands outside the block after a `realloc` is up to the environment.
-/

namespace CAdvanced.Vector

open CInt

/-- What the memory holds, counted in `int`s from a pointer on. -/
abbrev Ints := Int → Int

/-- `vec_struct`, with the number of `int`s in the block at `data`. -/
structure Vec where
  data : Ints
  block : Nat
  size : Int
  elements : Int

/-- A store to an element, and the number of `int`s in the block that it should go to. -/
structure Store where
  index : Int
  block : Nat
  deriving DecidableEq, Repr

/-- The store is one into the block. -/
def Store.Inside (s : Store) : Prop := 0 ≤ s.index ∧ s.index < s.block

/-- A call of `add_element`: the element, and what the memory around the block holds after
its `realloc`. -/
structure Call where
  element : Int
  around : Ints

/-- `create_vec(v)`, with what stands in and around the new block. -/
def createVec (memory : Ints) : Vec := ⟨memory, 1, 1, 0⟩

/-- `realloc` from `old` to `new` places: what fits in both is kept. -/
def realloc (data : Ints) (old new : Nat) (around : Ints) : Ints :=
  fun i => if 0 ≤ i ∧ i < min old new then data i else around i

/-- `add_element(v, element)`, and its store. -/
def addElement (call : Call) (v : Vec) : Vec × Store :=
  let data := realloc v.data v.block 1 call.around
  let index := signed 32 (v.size + 1)
  (⟨Function.update data index call.element, 1, signed 32 (v.size + 1),
    signed 32 (v.elements + 1)⟩, ⟨index, 1⟩)

/-- `get(v, index)`. -/
def get (v : Vec) (index : Int) : Int := v.data index

/-- One call after the other, with their stores. -/
def addElements : List Call → Vec → Vec × List Store
  | [], v => (v, [])
  | call :: calls, v =>
      let first := addElement call v
      let rest := addElements calls first.1
      (rest.1, first.2 :: rest.2)

/-- **What the vector is for**: the stores are stores into the block, `main` finds the
elements where it looks for them, and their number is right. -/
structure Works (calls : List Call) (r : Vec × List Store) : Prop where
  inside : ∀ s ∈ r.2, s.Inside
  get_eq : ∀ k, ∀ h : k < calls.length, get r.1 (k + 1 : Nat) = calls[k].element
  elements_eq : r.1.elements = calls.length

/-! ## The calls -/

variable {calls : List Call} {v : Vec}

theorem addElements_append (calls' : List Call) :
    addElements (calls ++ calls') v
      = ((addElements calls' (addElements calls v).1).1,
          (addElements calls v).2 ++ (addElements calls' (addElements calls v).1).2) := by
  induction calls generalizing v with
  | nil => rfl
  | cons call calls ih => rw [List.cons_append, addElements, ih]; rfl

/-- The two counters count, as long as they do not overflow. -/
theorem addElements_counts {s e : Nat} (hs : v.size = s) (he : v.elements = e)
    (hsize : s + calls.length < 2 ^ 31) (helements : e + calls.length < 2 ^ 31) :
    (addElements calls v).1.size = (s + calls.length : Nat)
      ∧ (addElements calls v).1.elements = (e + calls.length : Nat) := by
  induction calls generalizing v s e with
  | nil => exact ⟨hs, he⟩
  | cons call calls ih =>
      rw [List.length_cons] at hsize helements ⊢
      have hs' : (addElement call v).1.size = (s + 1 : Nat) := by
        show signed 32 (v.size + 1) = _
        rw [hs]
        apply signed_of_fits <;> omega
      have he' : (addElement call v).1.elements = (e + 1 : Nat) := by
        show signed 32 (v.elements + 1) = _
        rw [he]
        apply signed_of_fits <;> omega
      obtain ⟨hsize', helements'⟩ := ih hs' he' (by omega) (by omega)
      rw [addElements]
      refine ⟨hsize'.trans ?_, helements'.trans ?_⟩ <;> congr 1 <;> omega

/-- **Every store goes behind the block**, one place further than the last one. -/
theorem addElements_stores {s : Nat} (hs : v.size = s) (hsize : s + calls.length < 2 ^ 31) :
    (addElements calls v).2
      = (List.range' (s + 1) calls.length).map fun i : Nat => ⟨i, 1⟩ := by
  induction calls generalizing v s with
  | nil => rfl
  | cons call calls ih =>
      rw [List.length_cons] at hsize ⊢
      have hs' : (addElement call v).1.size = (s + 1 : Nat) := by
        show signed 32 (v.size + 1) = _
        rw [hs]
        apply signed_of_fits <;> omega
      have hfirst : (addElement call v).2 = ⟨(s + 1 : Nat), 1⟩ :=
        congrArg (fun i => (⟨i, 1⟩ : Store)) hs'
      rw [addElements, List.range'_succ, List.map_cons]
      dsimp only
      rw [ih hs' (by omega), hfirst]

/-- Between the first place and the last one that was written, `get` finds what the last
`realloc` has left there. -/
theorem get_addElement {call : Call} {k : Int} (hlow : 1 ≤ k) (hhigh : k < v.size + 1)
    (hfits : v.size + 1 < 2 ^ 31) : get (addElement call v).1 k = call.around k := by
  have hindex : signed 32 (v.size + 1) = v.size + 1 := by
    apply signed_of_fits <;> omega
  show Function.update (realloc v.data v.block 1 call.around) (signed 32 (v.size + 1))
    call.element k = _
  rw [hindex, Function.update_of_ne (by omega), realloc, if_neg (by omega)]

/-! ## The vector -/

theorem createVec_counts (memory : Ints) :
    (createVec memory).size = (1 : Nat) ∧ (createVec memory).elements = (0 : Nat) := ⟨rfl, rfl⟩

/-- The first store is at the place 2 of a block of one `int`. -/
theorem first_outside (memory : Ints) (call : Call) (calls : List Call) :
    ∃ s ∈ (addElements (call :: calls) (createVec memory)).2, ¬ s.Inside := by
  refine ⟨⟨2, 1⟩, List.mem_cons_self, ?_⟩
  unfold Store.Inside
  decide

/-- **The vector never works**: whatever is added, the first store misses its block. As long
as the counters do not overflow, every store does, the number of elements is right, and
where `main` looks for the elements there is what the last `realloc` has left. -/
theorem vector_never (memory : Ints) (calls : List Call) (last : Call) :
    ¬ Works (calls ++ [last]) (addElements (calls ++ [last]) (createVec memory))
      ∧ (calls.length + 2 < 2 ^ 31 →
          (∀ s ∈ (addElements (calls ++ [last]) (createVec memory)).2, ¬ s.Inside)
          ∧ (addElements (calls ++ [last]) (createVec memory)).1.elements = calls.length + 1
          ∧ ∀ k : Nat, k < calls.length + 1 →
              get (addElements (calls ++ [last]) (createVec memory)).1 (k + 1 : Nat)
                = last.around (k + 1 : Nat)) := by
  constructor
  · intro h
    obtain ⟨first, rest, hcons⟩ : ∃ first rest, calls ++ [last] = first :: rest :=
      List.exists_cons_of_ne_nil (by simp)
    have hinside := h.inside
    rw [hcons] at hinside
    obtain ⟨s, hs, hout⟩ := first_outside memory first rest
    exact hout (hinside s hs)
  · intro hfits
    obtain ⟨hs, he⟩ := createVec_counts memory
    have hlength : (calls ++ [last]).length = calls.length + 1 := by simp
    refine ⟨?_, ?_, fun k hk => ?_⟩
    · rw [addElements_stores hs (by omega)]
      intro s hmem
      obtain ⟨i, hi, rfl⟩ := List.mem_map.mp hmem
      rw [List.mem_range'_1] at hi
      unfold Store.Inside
      dsimp only
      omega
    · rw [(addElements_counts hs he (by omega) (by omega)).2, hlength]
      push_cast
      omega
    · have hsize : (addElements calls (createVec memory)).1.size = (1 + calls.length : Nat) :=
        (addElements_counts hs he (by omega) (by omega)).1
      rw [addElements_append]
      apply get_addElement <;> omega

/-- The two elements of `main`. -/
theorem not_vector :
    ¬ ∀ (memory : Ints) (calls : List Call), calls ≠ [] →
      Works calls (addElements calls (createVec memory)) := by
  intro hall
  have h := hall (fun _ => 0) [⟨1337, fun _ => 0⟩, ⟨707, fun _ => 0⟩] (by simp)
  have hfirst := h.inside ⟨2, 1⟩ List.mem_cons_self
  unfold Store.Inside at hfirst
  exact absurd hfirst (by decide)

end CAdvanced.Vector
