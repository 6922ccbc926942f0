import CAdvanced.MyController.Memcounter

/-!
# MyController — Text

The array `s` of `/MEMcounter` has room for 19 digits and a NUL. The counter has 64 bits,
and one request after the other takes it to every value that there is (`prints_of_lt`); from
`10 ^ 19` on, the values have 20 digits.
-/

namespace CAdvanced.MyController.Memcounter

open Interleave System CInt CText

variable {ι : Type}

/-- The text of the number, and its NUL, fit into the array of 20 characters. -/
def TextFits (n : Nat) : Prop := (decimal n).length + 1 ≤ 20

instance (n : Nat) : Decidable (TextFits n) := inferInstanceAs (Decidable (_ ≤ _))

/-- A request is about to print a number of 20 digits. -/
def long (l : ι × Action Unit) (c : State ι) : Bool :=
  match c.threads l.1 with
  | some (.respond loaded) => 10 ^ 19 ≤ loaded
  | _ => false

theorem textFits_iff {n : Nat} : TextFits n ↔ n < 10 ^ 19 := by
  have hdigits : (decimal n).length ≤ 19 ↔ n < 10 ^ 19 := length_decimal_le (by decide)
  exact Nat.succ_le_succ_iff.trans hdigits

/-! ## What a request can have loaded -/

/-- The counter, and every number that has been loaded from it, are numbers of 64 bits. -/
structure Loaded (c : State ι) : Prop where
  counter : c.shared < 2 ^ 64
  loaded : ∀ j n, c.threads j = some (.respond n) → n < 2 ^ 64

variable [DecidableEq ι]

/-- The code keeps to numbers of 64 bits. -/
theorem code_loaded {a : Action Unit} {n n' : Nat} {t t' : Option Pc} (hn : n < 2 ^ 64)
    (h : code a n t = some (n', t')) :
    n' < 2 ^ 64 ∧ ∀ m, t' = some (.respond m) → m < 2 ^ 64 := by
  cases a with
  | request =>
      cases t with
      | none =>
          cases h
          exact ⟨hn, fun _ hm => by cases hm⟩
      | some p => cases h
  | step e =>
      cases t with
      | none => cases h
      | some p =>
          cases p with
          | increment =>
              cases h
              exact ⟨unsigned_lt 64 _, fun _ hm => by cases hm⟩
          | load own =>
              cases h
              refine ⟨hn, fun m hm => ?_⟩
              cases hm
              exact hn
          | respond loaded =>
              cases h
              exact ⟨hn, fun _ hm => by cases hm⟩

theorem loaded_inductive : (server ι).Inductive Loaded where
  init := ⟨Nat.two_pow_pos 64, fun _ _ h => by cases h⟩
  step := by
    intro l c c' hc h
    obtain ⟨hcounter, hmover⟩ := code_loaded hc.counter (Conf.step_mover h)
    refine ⟨hcounter, ?_⟩
    apply Conf.step_forall (A := fun _ t => ∀ n, t = some (.respond n) → n < 2 ^ 64) h
    · exact hmover
    · exact fun j _ => hc.loaded j

/-- **One request after the other** takes the counter to any value. -/
theorem counter_of_lt (j : ι) {n : Nat} (hn : n < 2 ^ 64) :
    ∃ ls, (server ι).Reaches ls ⟨n, fun _ => none⟩ := by
  induction n with
  | zero => exact ⟨[], rfl⟩
  | succ n ih =>
      obtain ⟨ls, hls⟩ := ih (Nat.lt_of_succ_lt hn)
      have hsolo : soloRun code [.request, .step (), .step (), .step ()] (n, (none : Option Pc))
          = some (unsigned 64 (n + 1 : Nat), none) := rfl
      rw [unsigned_natCast hn] at hsolo
      have hrequest := exec_of_soloRun (S := server ι) (f := fun _ => code) (i := j)
        (c := ⟨n, fun _ => none⟩) (fun _ _ => rfl) hsolo
      rw [Function.update_eq_self] at hrequest
      exact ⟨_, exec_append_eq_some.mpr ⟨_, hls, hrequest⟩⟩

/-- The request after that is about to print the next value. -/
theorem prints_of_lt (j : ι) {n : Nat} (hn : n + 1 < 2 ^ 64) :
    ∃ ls c, (server ι).Reaches ls c ∧ c.threads j = some (.respond (n + 1)) := by
  obtain ⟨ls, hls⟩ := counter_of_lt j (Nat.lt_of_succ_lt hn)
  have hsolo : soloRun code [.request, .step (), .step ()] (n, (none : Option Pc))
      = some (unsigned 64 (n + 1 : Nat), some (.respond (unsigned 64 (n + 1 : Nat)))) := rfl
  rw [unsigned_natCast hn] at hsolo
  have hrequest := exec_of_soloRun (S := server ι) (f := fun _ => code) (i := j)
    (c := ⟨n, fun _ => none⟩) (fun _ _ => rfl) hsolo
  exact ⟨_, _, exec_append_eq_some.mpr ⟨_, hls, hrequest⟩, Function.update_self ..⟩

/-! ## What is printed -/

variable {ls : List (ι × Action Unit)} {c : State ι}

/-- No number of 20 digits is printed when only numbers below `10 ^ 19` are. -/
theorem long_iff (h : (server ι).Reaches ls c) :
    (server ι).count long ls = 0
      ↔ ∀ n ∈ (server ι).trace responds ls (start ι), n < 10 ^ 19 := by
  refine tally_eq_zero_iff_forall ?_ h
  intro l c
  unfold long responds
  rcases c.threads l.1 with - | p
  · exact ⟨fun _ n hn => (by cases hn), fun _ => rfl⟩
  · cases p with
    | respond loaded =>
        simp only [decide_eq_false_iff_not, Option.some.injEq, forall_eq', Nat.not_le]
    | _ => exact ⟨fun _ n hn => (by cases hn), fun _ => rfl⟩

/-- **The array of `/MEMcounter`**: a value that a request is about to print fits with its
NUL just when it is below `10 ^ 19`; and all that a run has printed has fitted just when no
request of it has printed a number of 20 digits. -/
theorem memcounter_text_iff (h : (server ι).Reaches ls c) :
    (∀ j n, c.threads j = some (.respond n) → n < 2 ^ 64 ∧ (TextFits n ↔ n < 10 ^ 19))
      ∧ ((∀ n ∈ (server ι).trace responds ls (start ι), TextFits n)
          ↔ (server ι).count long ls = 0) := by
  have hloaded : Loaded c := loaded_inductive.reachable ⟨ls, h⟩
  refine ⟨fun j n hj => ⟨hloaded.loaded j n hj, textFits_iff⟩, ?_⟩
  rw [long_iff h]
  exact forall₂_congr fun _ _ => textFits_iff

/-- The first request. -/
theorem memcounter_text_iff_first :
    ∃ ls : List (Fin 1 × Action Unit),
      (server (Fin 1)).trace responds ls (start (Fin 1)) = [1] ∧ TextFits 1 := by
  let ls : List (Fin 1 × Action Unit) := (0, .request) :: List.replicate 3 (0, .step ())
  obtain ⟨c, hrun, -⟩ := Option.any_eq_true _ _ |>.mp
    (show ((server (Fin 1)).exec ls (start (Fin 1))).any (fun _ => true) = true by decide +kernel)
  have hprinted : (server (Fin 1)).trace responds ls (start (Fin 1)) = [1] := by decide +kernel
  have hnone : (server (Fin 1)).count long ls = 0 := by decide +kernel
  refine ⟨ls, hprinted, (memcounter_text_iff hrun).2.mpr hnone 1 ?_⟩
  rw [hprinted]
  exact List.mem_singleton_self 1

/-- After as many requests, one is about to print `10 ^ 19`. -/
theorem not_memcounter_text :
    ¬ ∀ (ls : List (Fin 1 × Action Unit)) (c : State (Fin 1)), (server (Fin 1)).Reaches ls c →
      ∀ j n, c.threads j = some (.respond n) → TextFits n := by
  intro hall
  obtain ⟨ls, c, hrun, hc⟩ := prints_of_lt (0 : Fin 1) (n := 10 ^ 19 - 1) (by decide)
  have hfits := textFits_iff.mp (hall ls c hrun 0 _ hc)
  exact absurd hfits (by decide)

end CAdvanced.MyController.Memcounter
