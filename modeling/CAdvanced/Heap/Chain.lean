import Mathlib.Data.List.Basic
import Mathlib.Data.List.Nodup

/-!
# Heap — singly linked chains

A memory of nodes, seen through its link field: `link a = none` where nothing
is allocated, `some none` at a node whose pointer is NULL. A chain is the list
of the addresses that are passed from its first one to NULL, each of them once.

* `IsChain.congr` — writes outside of it do not matter;
* `IsChain.snoc` — the last pointer is set to a new node;
* `IsChain.tail` — the first node is dropped;
* `IsChain.unique` — the memory and the first address determine the chain.
-/

namespace Heap

variable {α : Type*} {link link' : α → Option (Option α)} {L L' : List α} {a b : α}

/-- The links of the addresses of `L` lead from each to the next, and from the
last one to NULL. -/
structure IsChain (link : α → Option (Option α)) (L : List α) : Prop where
  nodup : L.Nodup
  link_eq : ∀ {k a}, L[k]? = some a → link a = some L[k + 1]?

theorem IsChain.singleton (h : link a = some none) : IsChain link [a] where
  nodup := List.nodup_singleton a
  link_eq := by
    intro k b hb
    obtain ⟨hk, rfl⟩ := List.getElem?_eq_some_iff.mp hb
    simpa using h

/-- Every node of a chain is allocated. -/
theorem IsChain.allocated (h : IsChain link L) (ha : a ∈ L) : link a ≠ none := by
  obtain ⟨k, hk⟩ := List.getElem?_of_mem ha
  rw [h.link_eq hk]
  exact Option.some_ne_none _

theorem IsChain.link_head (h : IsChain link (a :: L)) : link a = some L.head? := by
  rw [h.link_eq (k := 0) rfl, List.getElem?_cons_succ, List.head?_eq_getElem?]

theorem IsChain.tail (h : IsChain link (a :: L)) : IsChain link L where
  nodup := h.nodup.of_cons
  link_eq := by
    intro k b hb
    exact h.link_eq (k := k + 1) hb

/-- Exactly the last node of a chain has no successor. -/
theorem IsChain.link_eq_null (h : IsChain link L) (ha : a ∈ L) :
    link a = some none ↔ L.getLast? = some a := by
  obtain ⟨k, hk⟩ := List.getElem?_of_mem ha
  obtain ⟨hlt, hak⟩ := List.getElem?_eq_some_iff.mp hk
  rw [h.link_eq hk, Option.some.injEq, List.getElem?_eq_none_iff]
  constructor
  · intro hend
    rw [List.getLast?_eq_getElem?, ← hk]
    exact congrArg (L[·]?) (by omega)
  · intro hlast
    rw [List.getLast?_eq_getElem?] at hlast
    have := (List.getElem?_inj (by omega) h.nodup).mp (hlast.trans hk.symm)
    omega

/-- The successor of a node of the chain is another node of the chain. -/
theorem IsChain.next_mem (h : IsChain link L) (ha : a ∈ L) (hab : link a = some (some b)) :
    b ∈ L ∧ b ≠ a := by
  obtain ⟨k, hk⟩ := List.getElem?_of_mem ha
  have hb : L[k + 1]? = some b := Option.some.inj ((h.link_eq hk).symm.trans hab)
  refine ⟨List.mem_of_getElem? hb, ?_⟩
  rintro rfl
  have := (List.getElem?_inj (List.getElem?_eq_some_iff.mp hk).1 h.nodup).mp (hk.trans hb.symm)
  omega

theorem IsChain.congr (h : IsChain link L) (heq : ∀ a ∈ L, link' a = link a) :
    IsChain link' L where
  nodup := h.nodup
  link_eq := by
    intro k a ha
    rw [heq a (List.mem_of_getElem? ha)]
    exact h.link_eq ha

/-- **Appending**: the link of the last node is set to the fresh node `b`. -/
theorem IsChain.snoc (h : IsChain link L) (hlast : L.getLast? = some a) (hb : b ∉ L)
    (hset : link' a = some (some b)) (hnull : link' b = some none)
    (heq : ∀ x ∈ L, x ≠ a → link' x = link x) : IsChain link' (L ++ [b]) where
  nodup := by
    rw [List.nodup_append]
    refine ⟨h.nodup, List.nodup_singleton b, ?_⟩
    rintro x hx y hy rfl
    exact hb (List.mem_singleton.mp hy ▸ hx)
  link_eq := by
    intro k x hx
    rw [List.getLast?_eq_getElem?] at hlast
    rcases Nat.lt_trichotomy (k + 1) L.length with hk | hk | hk
    · -- before the old last node
      rw [List.getElem?_append_left (by omega)] at hx ⊢
      have hxa : x ≠ a := by
        rintro rfl
        have := (List.getElem?_inj (by omega) h.nodup).mp (hx.trans hlast.symm)
        omega
      rw [heq x (List.mem_of_getElem? hx) hxa]
      exact h.link_eq hx
    · -- the old last node
      rw [List.getElem?_append_left (by omega)] at hx
      have hka : k = L.length - 1 := by omega
      rw [hka, hlast] at hx
      cases hx
      rw [hset, List.getElem?_append_right (by omega), hk]
      simp
    · -- the new node
      have hkL : k = L.length := by
        have := (List.getElem?_eq_some_iff.mp hx).1
        simp only [List.length_append, List.length_singleton] at this
        omega
      subst hkL
      rw [List.getElem?_append_right (by omega)] at hx
      simp only [Nat.sub_self, List.getElem?_cons_zero, Option.some.injEq] at hx
      subst hx
      rw [hnull, List.getElem?_eq_none (by simp)]

/-- The memory and the first address determine the chain. -/
theorem IsChain.unique (h : IsChain link L) (h' : IsChain link L')
    (hhead : L.head? = L'.head?) : L = L' := by
  refine List.ext_getElem? fun k => ?_
  induction k with
  | zero => simpa only [List.head?_eq_getElem?] using hhead
  | succ k ih =>
      cases hk : L[k]? with
      | none =>
          rw [hk] at ih
          have h1 := List.getElem?_eq_none_iff.mp hk
          have h2 := List.getElem?_eq_none_iff.mp ih.symm
          rw [List.getElem?_eq_none (by omega), List.getElem?_eq_none (by omega)]
      | some a =>
          rw [hk] at ih
          exact Option.some.inj ((h.link_eq hk).symm.trans (h'.link_eq ih.symm))

/-! ## Positions -/

section Position
variable [DecidableEq α]

/-- The first node stands at position 0, and no other one does. -/
theorem IsChain.idxOf_eq_zero (hhead : L.head? = some b) (ha : a ∈ L) :
    L.idxOf a = 0 ↔ a = b := by
  obtain ⟨L, rfl⟩ := List.head?_eq_some_iff.mp hhead
  constructor
  · intro h0
    exact (List.idxOf_inj ha).mp (h0.trans List.idxOf_cons_self.symm)
  · rintro rfl
    exact List.idxOf_cons_self

/-- The successor of a node stands one position further on. -/
theorem IsChain.idxOf_next (h : IsChain link L) (ha : a ∈ L)
    (hab : link a = some (some b)) : L.idxOf b = L.idxOf a + 1 := by
  have hb : L[L.idxOf a + 1]? = some b :=
    Option.some.inj ((h.link_eq (List.getElem?_idxOf ha)).symm.trans hab)
  obtain ⟨hlt, rfl⟩ := List.getElem?_eq_some_iff.mp hb
  exact h.nodup.idxOf_getElem _ hlt

/-- The node without a successor stands at the last position. -/
theorem IsChain.idxOf_last (h : IsChain link L) (ha : a ∈ L)
    (hnull : link a = some none) : L.idxOf a + 1 = L.length := by
  have hend : L[L.idxOf a + 1]? = none :=
    Option.some.inj ((h.link_eq (List.getElem?_idxOf ha)).symm.trans hnull)
  have := List.getElem?_eq_none_iff.mp hend
  have := List.idxOf_lt_length_of_mem ha
  omega

end Position

end Heap
