import CAdvanced.Interleave.Tickets
import CAdvanced.MyController.Model
import Mathlib.Algebra.BigOperators.Group.List.Basic
import Mathlib.Data.Nat.Cast.Basic

/-!
# MyController — Memcounter

`/MEMcounter` increments its counter, throws away what the increment has made of it, and
loads the counter once more for the response. The thrown-away numbers are the right ones:
each is given to one request (`own_perm`). What is loaded is at least that, and more when
another request has incremented the counter in between.
-/

namespace CAdvanced.MyController.Memcounter

open Interleave System CInt CText

variable {ι : Type}

/-- A thread takes on a request. -/
def begins (l : ι × Action Unit) (_ : State ι) : Bool := l.2 = .request

/-- A request loads another number than its own, or one of 20 digits, for whose text and NUL
the array is too small. -/
def late (l : ι × Action Unit) (c : State ι) : Bool :=
  match c.threads l.1 with
  | some (.load own) => own ≠ c.shared ∨ 10 ^ 19 ≤ c.shared
  | _ => false

/-- The number that an increment gives out. -/
def issues (l : ι × Action Unit) (c : State ι) : Option Nat :=
  match c.threads l.1 with
  | some .increment => some (c.shared + 1)
  | _ => none

/-- The number of a request, and the one that it loads. -/
def loads (l : ι × Action Unit) (c : State ι) : Option (Nat × Nat) :=
  match c.threads l.1 with
  | some (.load own) => some (own, c.shared)
  | _ => none

/-- The counter wraps around. -/
def wraps (l : ι × Action Unit) (c : State ι) : Bool :=
  c.threads l.1 = some .increment ∧ c.shared + 1 = 2 ^ 64

/-- The number that a request has been given, and not used yet. -/
def holdsOwn : Option Pc → Option Nat
  | some (.load own) => some own
  | _ => none

/-- The number that a request has loaded, and not responded yet. -/
def holdsLoaded : Option Pc → Option Nat
  | some (.respond loaded) => some loaded
  | _ => none

def busy : Option Pc → Nat
  | none => 0
  | some _ => 1

/-- The increment of the request is still to come. -/
def toIncrement : Option Pc → Nat
  | some .increment => 1
  | _ => 0

/-! ## One step -/

/-- What a step does, when the counter does not wrap around. -/
inductive Effect (n : Nat) : Option Pc → Nat → Option Pc → Prop
  | request : Effect n none n (some .increment)
  | increment (hroom : n + 1 < 2 ^ 64) :
      Effect n (some .increment) (n + 1) (some (.load (n + 1)))
  | load {own : Nat} : Effect n (some (.load own)) n (some (.respond n))
  | respond {loaded : Nat} : Effect n (some (.respond loaded)) n none

theorem code_effect {a : Action Unit} {n n' : Nat} {t t' : Option Pc}
    (h : code a n t = some (n', t')) (hfits : t = some .increment → n + 1 < 2 ^ 64) :
    Effect n t n' t' := by
  cases a with
  | request =>
      cases t with
      | none =>
          cases h
          exact .request
      | some p => cases h
  | step e =>
      cases t with
      | none => cases h
      | some p =>
          cases p with
          | increment =>
              have hsame : unsigned 64 (n + 1 : Nat) = n + 1 := unsigned_natCast (hfits rfl)
              simp only [code, memcounter, hsame] at h
              cases h
              exact .increment (hfits rfl)
          | load own =>
              cases h
              exact .load
          | respond loaded =>
              cases h
              exact .respond

/-- The counter grows, and is what it gives out. -/
theorem Effect.grows {n n' : Nat} {t t' : Option Pc} (h : Effect n t n' t') (hn : n < 2 ^ 64) :
    n ≤ n' ∧ n' < 2 ^ 64 ∧ ∀ own, t' = some (.load own) → own ≤ n' := by
  cases h with
  | increment hroom =>
      refine ⟨Nat.le_succ n, hroom, fun own hown => ?_⟩
      cases hown
      exact Nat.le_refl _
  | _ => exact ⟨Nat.le_refl n, hn, fun _ => nofun⟩

section Laws
variable {l : ι × Action Unit} {c : State ι} {n' : Nat} {t' : Option Pc}

/-- The increment gives out the next number. -/
theorem Effect.counts (h : Effect c.shared (c.threads l.1) n' t') :
    issues l c = none ∧ n' = c.shared ∨ issues l c = some (c.shared + 1) ∧ n' = c.shared + 1 := by
  unfold issues
  generalize c.threads l.1 = t at h
  cases h with
  | increment hroom => exact .inr ⟨rfl, rfl⟩
  | _ => exact .inl ⟨rfl, rfl⟩

/-- A request holds on to its number until it loads. -/
theorem Effect.own (h : Effect c.shared (c.threads l.1) n' t') :
    ((holdsOwn t').toList ++ ((loads l c).map Prod.fst).toList).Perm
      ((holdsOwn (c.threads l.1)).toList ++ (issues l c).toList) := by
  unfold loads issues
  generalize c.threads l.1 = t at h
  cases h <;> exact List.Perm.refl _

/-- A request holds on to what it has loaded until it responds it. -/
theorem Effect.loaded (h : Effect c.shared (c.threads l.1) n' t') :
    ((holdsLoaded t').toList ++ (responds l c).toList).Perm
      ((holdsLoaded (c.threads l.1)).toList ++ ((loads l c).map Prod.snd).toList) := by
  unfold loads responds
  generalize c.threads l.1 = t at h
  cases h <;> exact List.Perm.refl _

/-- A request is taken on, or goes on, or is responded. -/
theorem Effect.books (h : Effect c.shared (c.threads l.1) n' t') :
    busy t' + (responds l c).isSome.toNat
      = busy (c.threads l.1) + (c.threads l.1).isNone.toNat := by
  unfold responds
  generalize c.threads l.1 = t at h
  cases h <;> rfl

/-- As many increments are still to come as requests have come without them. -/
theorem Effect.increments (h : Effect c.shared (c.threads l.1) n' t') :
    n' + toIncrement t' = c.shared + toIncrement (c.threads l.1)
      + (c.threads l.1).isNone.toNat := by
  generalize c.threads l.1 = t at h
  cases h <;> rfl

end Laws

/-- The counter is a number of 64 bits, and at least as large as any that it has given out. -/
structure Inv (c : State ι) : Prop where
  fits : c.shared < 2 ^ 64
  own_le : ∀ j own, c.threads j = some (.load own) → own ≤ c.shared

section Step
variable [DecidableEq ι] {l : ι × Action Unit} {c c' : State ι}

omit [DecidableEq ι] in
theorem inv_start : Inv (start ι) := ⟨Nat.two_pow_pos 64, fun _ _ => nofun⟩

theorem Inv.effect (hI : Inv c) (h : (server ι).next l c = some c') (hwraps : wraps l c = false) :
    Effect c.shared (c.threads l.1) c'.shared (c'.threads l.1) := by
  apply code_effect (Conf.step_mover h)
  intro hpc
  have hfits := hI.fits
  have hne : c.shared + 1 ≠ 2 ^ 64 := fun heq => of_decide_eq_false hwraps ⟨hpc, heq⟩
  omega

theorem Inv.step (hI : Inv c) (h : (server ι).next l c = some c') (hwraps : wraps l c = false) :
    Inv c' := by
  obtain ⟨hgrows, hfits, hmover⟩ := (hI.effect h hwraps).grows hI.fits
  refine ⟨hfits, ?_⟩
  apply Conf.step_forall (A := fun n t => ∀ own, t = some (.load own) → own ≤ n) h
  · exact hmover
  · exact fun j _ own hj => (hI.own_le j own hj).trans hgrows

theorem inv_inductive : ((server ι).avoiding wraps).Inductive Inv where
  init := inv_start
  step := by
    intro l c c' hI h
    obtain ⟨hwraps, hnext⟩ := avoiding_next.mp h
    exact hI.step hnext hwraps

/-- A thread takes on a request when it has none. -/
theorem begins_eq (h : (server ι).next l c = some c') : begins l c = (c.threads l.1).isNone := by
  have hmove : code l.2 c.shared (c.threads l.1) = some (c'.shared, c'.threads l.1) :=
    Conf.step_mover h
  obtain ⟨j, a⟩ := l
  cases hf : c.threads j <;> cases a <;> simp_all [begins, code]

end Step

/-! ## Over a run -/

variable [Fintype ι] [DecidableEq ι] {ls : List (ι × Action Unit)} {c : State ι}

/-- With fewer than `2 ^ 64` requests, the counter does not wrap around. -/
theorem not_wraps (h : (server ι).Reaches ls c) (hmax : (server ι).count begins ls < 2 ^ 64) :
    (server ι).count wraps ls = 0 := by
  refine tally_eq_zero_of_budget (S := server ι) (p := begins)
    (I := fun n c => Inv c ∧ c.shared + total toIncrement c.threads + n < 2 ^ 64) ?_
    ⟨inv_start, ?_⟩ h
  · intro n l c c' hc hnext
    obtain ⟨hI, hbudget⟩ := hc
    rw [begins_eq hnext] at hbudget
    have hwraps : wraps l c = false := by
      refine decide_eq_false ?_
      rintro ⟨hpc, hlast⟩
      have hown := le_total toIncrement c.threads l.1
      rw [hpc] at hown
      simp only [toIncrement] at hown
      omega
    have hincrements := (hI.effect hnext hwraps).increments
    have htotal := Conf.total_step toIncrement hnext
    exact ⟨hwraps, hI.step hnext hwraps, by omega⟩
  · have hnone : total toIncrement (start ι).threads = 0 := total_eq_zero fun _ => rfl
    show 0 + total toIncrement (start ι).threads + (server ι).count begins ls < 2 ^ 64
    rw [hnone]
    omega

/-- The numbers of the requests, with what each of them has loaded. -/
def loadsOf (ls : List (ι × Action Unit)) : List (Nat × Nat) :=
  (server ι).trace loads ls (start ι)

/-- When nobody is in a request, all that has been loaded has been responded. -/
theorem loaded_perm (h : (server ι).Reaches ls c) (hwraps : (server ι).count wraps ls = 0)
    (hdone : ∀ j, c.threads j = none) :
    ((server ι).trace responds ls (start ι)).Perm ((loadsOf ls).map Prod.snd) := by
  have hperm : (((server ι).avoiding wraps).trace responds ls (start ι)).Perm
      (((server ι).avoiding wraps).trace (fun l c => (loads l c).map Prod.snd) ls (start ι)) := by
    refine tickets_perm (m := Prod.fst) (f := fun l => code l.2) (w := holdsLoaded)
      (fun hnext => (avoiding_next.mp hnext).2) inv_inductive ?_ inv_start
      (exec_avoiding h hwraps) (fun _ => rfl) ?_
    · intro l c c' hc hnext
      obtain ⟨hok, hnext⟩ := avoiding_next.mp hnext
      exact (hc.effect hnext hok).loaded
    · intro j
      rw [hdone j]
      rfl
  have hresponds : ((server ι).avoiding wraps).trace responds ls (start ι)
      = (server ι).trace responds ls (start ι) := trace_avoiding responds h hwraps
  have hloaded : ((server ι).avoiding wraps).trace (fun l c => (loads l c).map Prod.snd) ls
      (start ι) = (loadsOf ls).map Prod.snd :=
    (trace_avoiding _ h hwraps).trans (trace_map loads Prod.snd ls _).symm
  rw [hresponds, hloaded] at hperm
  exact hperm

/-- The requests of a run are the responses, when nobody is in a request. -/
theorem requests_eq (h : (server ι).Reaches ls c) (hwraps : (server ι).count wraps ls = 0)
    (hdone : ∀ j, c.threads j = none) :
    (loadsOf ls).length = (server ι).count begins ls := by
  have hbooks : ((server ι).avoiding wraps).count (fun l c => (responds l c).isSome) ls
      = ((server ι).avoiding wraps).count begins ls := by
    refine tally_eq_of_books (m := Prod.fst) (f := fun l => code l.2) (w := busy)
      (fun hnext => (avoiding_next.mp hnext).2) inv_inductive ?_ inv_start
      (exec_avoiding h hwraps) (fun _ => rfl) ?_
    · intro l c c' hc hnext
      obtain ⟨hok, hnext⟩ := avoiding_next.mp hnext
      rw [begins_eq hnext]
      exact (hc.effect hnext hok).books
    · intro j
      rw [hdone j]
      rfl
  have hbegins : ((server ι).avoiding wraps).count begins ls = (server ι).count begins ls :=
    tally_avoiding _ h hwraps
  have hresponds : ((server ι).avoiding wraps).count (fun l c => (responds l c).isSome) ls
      = (server ι).count (fun l c => (responds l c).isSome) ls := tally_avoiding _ h hwraps
  have hlength := (loaded_perm h hwraps hdone).length_eq
  rw [length_trace, List.length_map] at hlength
  rw [← hlength]
  exact hresponds.symm.trans (hbooks.trans hbegins)

/-- **The numbers that are thrown away** are those from one on, each of them once. -/
theorem own_perm (h : (server ι).Reaches ls c) (hwraps : (server ι).count wraps ls = 0)
    (hdone : ∀ j, c.threads j = none) :
    ((loadsOf ls).map Prod.fst).Perm
      ((List.range ((server ι).count begins ls)).map fun j => j + 1) := by
  have hrun := exec_avoiding h hwraps
  have hperm : (((server ι).avoiding wraps).trace (fun l c => (loads l c).map Prod.fst) ls
        (start ι)).Perm (((server ι).avoiding wraps).trace issues ls (start ι)) := by
    refine tickets_perm (m := Prod.fst) (f := fun l => code l.2) (w := holdsOwn)
      (fun hnext => (avoiding_next.mp hnext).2) inv_inductive ?_ inv_start hrun
      (fun _ => rfl) ?_
    · intro l c c' hc hnext
      obtain ⟨hok, hnext⟩ := avoiding_next.mp hnext
      exact (hc.effect hnext hok).own
    · intro j
      rw [hdone j]
      rfl
  have hissued := (trace_iterate inv_inductive (v := fun c : State ι => c.shared)
    (f := (· + 1)) (o := issues) (by
      intro l c c' hc hnext
      obtain ⟨hok, hnext⟩ := avoiding_next.mp hnext
      exact (hc.effect hnext hok).counts) inv_start hrun).1
  have hown : ((server ι).avoiding wraps).trace (fun l c => (loads l c).map Prod.fst) ls
      (start ι) = (loadsOf ls).map Prod.fst :=
    (trace_avoiding _ h hwraps).trans (trace_map loads Prod.fst ls _).symm
  rw [hown] at hperm
  have hlength : (((server ι).avoiding wraps).trace issues ls (start ι)).length
      = (server ι).count begins ls := by
    rw [← hperm.length_eq, List.length_map]
    exact requests_eq h hwraps hdone
  have hvalues : ((server ι).avoiding wraps).trace issues ls (start ι)
      = (List.range ((server ι).count begins ls)).map fun j => j + 1 := by
    rw [← hlength]
    refine hissued.trans ?_
    rw [← List.range_map_iterate]
    apply List.map_congr_left
    intro j _
    rw [add_right_iterate_apply, nsmul_one, Nat.cast_id, Nat.add_comm]
    rfl
  rw [hvalues] at hperm
  exact hperm

omit [Fintype ι] in
/-- A request never loads less than its own number. -/
theorem own_le_loaded (h : (server ι).Reaches ls c) (hwraps : (server ι).count wraps ls = 0) :
    ∀ p ∈ loadsOf ls, p.1 ≤ p.2 := by
  have hloads : ((server ι).avoiding wraps).trace loads ls (start ι) = loadsOf ls :=
    trace_avoiding loads h hwraps
  rw [← hloads]
  refine (tally_eq_zero_iff inv_inductive (p := fun _ _ => false) ?_ inv_start
    (exec_avoiding h hwraps)).mp (tally_false _ _)
  intro l c c' hc _
  refine ⟨fun _ p hp => ?_, fun _ => rfl⟩
  unfold loads at hp
  split at hp
  · rename_i own hown
    cases hp
    exact hc.own_le _ own hown
  · cases hp

omit [Fintype ι] in
/-- No request is late when all load their own numbers, and these are not too long. -/
theorem late_iff (h : (server ι).Reaches ls c) :
    (server ι).count late ls = 0 ↔ ∀ p ∈ loadsOf ls, p.1 = p.2 ∧ p.2 < 10 ^ 19 := by
  refine tally_eq_zero_iff_forall ?_ h
  intro l c
  unfold late loads
  split
  · simp only [decide_eq_false_iff_not, Option.some.injEq, forall_eq']
    omega
  · exact ⟨fun _ _ => nofun, fun _ => rfl⟩

omit [Fintype ι] [DecidableEq ι] in
/-- Two lists of numbers that are the same in some order are the same if each number of the
one is at most its partner in the other. -/
theorem eq_of_le_of_perm {ps : List (Nat × Nat)} (hle : ∀ p ∈ ps, p.1 ≤ p.2)
    (hperm : (ps.map Prod.fst).Perm (ps.map Prod.snd)) : ∀ p ∈ ps, p.1 = p.2 := by
  have hsum := hperm.sum_eq
  clear hperm
  induction ps with
  | nil => exact nofun
  | cons p ps ih =>
      have hp := hle p List.mem_cons_self
      have hps : ∀ q ∈ ps, q.1 ≤ q.2 := fun q hq => hle q (List.mem_cons_of_mem p hq)
      have hrest : (ps.map Prod.fst).sum ≤ (ps.map Prod.snd).sum := by
        apply List.sum_le_sum
        exact hps
      rw [List.map_cons, List.map_cons, List.sum_cons, List.sum_cons] at hsum
      intro q hq
      rcases List.mem_cons.mp hq with rfl | hq
      · omega
      · exact ih hps (by omega) q hq

omit [Fintype ι] [DecidableEq ι] in
/-- A response of `sprintf` is the number, if it has fewer than 20 digits. -/
theorem sprintf_eq_some {n : Nat} {text : List Char} :
    sprintf 20 n = some text ↔ n < 10 ^ 19 ∧ text = decimal n := by
  have hlength : (decimal n).length < 20 ↔ n < 10 ^ 19 :=
    Nat.lt_succ_iff.trans (length_decimal_le (by decide))
  unfold sprintf
  by_cases hfits : (decimal n).length < 20
  · rw [if_pos hfits]
    exact ⟨fun h => ⟨hlength.mp hfits, (Option.some.inj h).symm⟩, fun h => congrArg some h.2.symm⟩
  · rw [if_neg hfits]
    exact ⟨nofun, fun h => absurd (hlength.mpr h.1) hfits⟩

/-- **`/MEMcounter` hands out distinct numbers** just when no request is late: when no
request is in progress, the responses are the numbers from one on, each of them once, if
and only if every request has loaded its own number, of at most 19 digits. -/
theorem memcounter_distinct_iff (h : (server ι).Reaches ls c)
    (hmax : (server ι).count begins ls < 2 ^ 64) (hdone : ∀ j, c.threads j = none) :
    (responses ls).Perm
        ((List.range ((server ι).count begins ls)).map fun j => some (decimal (j + 1 : Nat)))
      ↔ (server ι).count late ls = 0 := by
  have hwraps := not_wraps h hmax
  have hown := own_perm h hwraps hdone
  have hloaded : (responses ls).Perm (((loadsOf ls).map Prod.snd).map (sprintf 20)) :=
    (loaded_perm h hwraps hdone).map (sprintf 20)
  have htexts : (List.range ((server ι).count begins ls)).map (fun j => some (decimal (j + 1 : Nat)))
      = ((List.range ((server ι).count begins ls)).map fun j => j + 1).map
        fun n : Nat => some (decimal n) := by
    rw [List.map_map]
    rfl
  have hprints : (∀ p ∈ loadsOf ls, p.2 < 10 ^ 19) →
      ((loadsOf ls).map Prod.snd).map (sprintf 20)
        = ((loadsOf ls).map Prod.snd).map fun n : Nat => some (decimal n) := by
    intro hshort
    rw [List.map_map, List.map_map]
    apply List.map_congr_left
    intro p hp
    exact sprintf_eq_some.mpr ⟨hshort p hp, rfl⟩
  rw [late_iff h, htexts]
  constructor
  · intro hperm
    -- all the texts fit, so the responses are the numbers that have been loaded
    have hresponded := hloaded.symm.trans hperm
    have hshort : ∀ p ∈ loadsOf ls, p.2 < 10 ^ 19 := by
      intro p hp
      have hmem := hresponded.subset (List.mem_map_of_mem (List.mem_map_of_mem hp))
      obtain ⟨n, -, hn⟩ := List.mem_map.mp hmem
      exact (sprintf_eq_some.mp hn.symm).1
    have hinjective : Function.Injective fun n : Nat => some (decimal n) :=
      fun m n heq => decimal_natCast_inj (Option.some.inj heq)
    rw [hprints hshort, List.map_perm_map_iff hinjective] at hresponded
    have hsame := eq_of_le_of_perm (own_le_loaded h hwraps) (hown.trans hresponded.symm)
    exact fun p hp => ⟨hsame p hp, hshort p hp⟩
  · intro hgood
    have hsnd : (loadsOf ls).map Prod.snd = (loadsOf ls).map Prod.fst :=
      List.map_congr_left fun p hp => (hgood p hp).1.symm
    rw [hprints fun p hp => (hgood p hp).2, hsnd] at hloaded
    exact hloaded.trans (hown.map _)

/-- Two requests one after the other. -/
theorem memcounter_distinct_iff_two :
    ∃ ls : List (Fin 2 × Action Unit), responses ls = [some ['1'], some ['2']]
      ∧ (responses ls).Perm ((List.range 2).map fun j => some (decimal (j + 1 : Nat))) := by
  let ls : List (Fin 2 × Action Unit) :=
    (0, .request) :: List.replicate 3 (0, .step ()) ++ (1, .request) :: List.replicate 3 (1, .step ())
  obtain ⟨c, hrun, hc⟩ := Option.any_eq_true _ _ |>.mp
    (show ((server (Fin 2)).exec ls (start (Fin 2))).any (fun c => ∀ j, c.threads j = none) = true
      by decide +kernel)
  have htwo : (server (Fin 2)).count begins ls = 2 := by decide +kernel
  have hiff := memcounter_distinct_iff hrun (by rw [htwo]; decide) (of_decide_eq_true hc)
  rw [htwo] at hiff
  exact ⟨ls, by decide +kernel, hiff.mpr (by decide +kernel)⟩

/-- Both requests increment the counter before one of them loads it: both respond 2. -/
theorem not_memcounter_distinct :
    ¬ ∀ (ls : List (Fin 2 × Action Unit)) (c : State (Fin 2)),
      (server (Fin 2)).Reaches ls c → (server (Fin 2)).count begins ls < 2 ^ 64 →
        (∀ j, c.threads j = none) → (responses ls).Perm
          ((List.range ((server (Fin 2)).count begins ls)).map fun j =>
            some (decimal (j + 1 : Nat))) := by
  intro hall
  let ls : List (Fin 2 × Action Unit) :=
    [(0, .request), (1, .request), (0, .step ()), (1, .step ()), (0, .step ()), (1, .step ()),
      (0, .step ()), (1, .step ())]
  obtain ⟨c, hrun, hc⟩ := Option.any_eq_true _ _ |>.mp
    (show ((server (Fin 2)).exec ls (start (Fin 2))).any (fun c => ∀ j, c.threads j = none) = true
      by decide +kernel)
  have htwo : (server (Fin 2)).count begins ls = 2 := by decide +kernel
  have hperm := hall ls c hrun (by rw [htwo]; decide) (of_decide_eq_true hc)
  rw [htwo] at hperm
  exact absurd hperm (by decide +kernel)

end CAdvanced.MyController.Memcounter
