import CAdvanced.Interleave.Termination
import CAdvanced.MyController.Value

/-!
# MyController — Fscounter

`/FScounter` counts, if its file can always be opened: `k` requests on a file that says `n` come
to an end under every schedule (`length_le`, `fscounter_moves`), respond the numbers from `n + 1`
to `n + k`, and leave the last one in the file.
-/

namespace CAdvanced.MyController.Fscounter

open Interleave System CInt CText

variable {ι : Type} [Fintype ι] [DecidableEq ι] {file : List Char} {ls : List (ι × Action Bool)}
  {c : State ι}

/-- When nobody is in a request, what has been responded are the values that have been
given out, which follow each other; the last one is the count. -/
theorem responded_perm {n : Int} (hfile : readLines 0 (lines file) = .ok n)
    (h : (server ι file).Reaches ls c) (hopens : (server ι file).count fails ls = 0)
    (hdone : ∀ j, c.threads j = none) :
    ∃ k, ((server ι file).trace responds ls (start ι file)).Perm (List.iterate succ (succ n) k)
      ∧ value c = succ^[k] n ∧ Inv file c := by
  have hI := inv_inductive (ι := ι) hfile
  have hrun := exec_avoiding h hopens
  have hresponded : ((server ι file).avoiding fails).trace responds ls (start ι file)
      = (server ι file).trace responds ls (start ι file) := trace_avoiding responds h hopens
  have hstart : value (start ι file) = n := fileValue_of_read hfile
  have hvalues := trace_iterate hI (v := value) (f := succ) (o := issues) (by
    intro l c c' hc hnext
    obtain ⟨hok, hnext⟩ := avoiding_next.mp hnext
    exact value_step hc hfile hnext hok) inv_start hrun
  have hperm : (((server ι file).avoiding fails).trace responds ls (start ι file)).Perm
      (((server ι file).avoiding fails).trace issues ls (start ι file)) := by
    refine tickets_perm (m := Prod.fst) (f := fun l => code l.1 l.2) (w := holds)
      (fun hnext => (avoiding_next.mp hnext).2) hI ?_ inv_start hrun (fun _ => rfl) ?_
    · intro l c c' hc hnext
      obtain ⟨hok, hnext⟩ := avoiding_next.mp hnext
      exact (hc.effect hfile hnext hok).tickets
    · intro j
      rw [hdone j]
      rfl
  rw [hstart] at hvalues
  rw [← hresponded]
  refine ⟨_, hvalues.1 ▸ hperm, hvalues.2, hI.exec inv_start hrun⟩

omit [Fintype ι] in
/-- A thread takes on a request when it has none. -/
theorem begins_eq {l : ι × Action Bool} {c c' : State ι}
    (h : (server ι file).next l c = some c') : begins l c = (c.threads l.1).isNone := by
  have hmove : code l.1 l.2 c.shared (c.threads l.1) = some (c'.shared, c'.threads l.1) :=
    Conf.step_mover h
  obtain ⟨j, a⟩ := l
  cases hf : c.threads j <;> cases a <;> simp_all [begins, code]

/-- The requests of a run are the responses and what is still in progress. -/
theorem requests_eq {n : Int} (hfile : readLines 0 (lines file) = .ok n)
    (h : (server ι file).Reaches ls c) (hopens : (server ι file).count fails ls = 0)
    (hdone : ∀ j, c.threads j = none) :
    (responses file ls).length = (server ι file).count begins ls := by
  have hbooks : ((server ι file).avoiding fails).count (fun l c => (responds l c).isSome) ls
      = ((server ι file).avoiding fails).count begins ls := by
    refine tally_eq_of_books (m := Prod.fst) (f := fun l => code l.1 l.2) (w := busy)
      (fun hnext => (avoiding_next.mp hnext).2) (inv_inductive hfile) ?_ inv_start
      (exec_avoiding h hopens) (fun _ => rfl) ?_
    · intro l c c' hc hnext
      obtain ⟨hok, hnext⟩ := avoiding_next.mp hnext
      rw [begins_eq hnext]
      exact (hc.effect hfile hnext hok).books
    · intro j
      rw [hdone j]
      rfl
  have hbegins : ((server ι file).avoiding fails).count begins ls
      = (server ι file).count begins ls := tally_avoiding _ h hopens
  have hresponds : ((server ι file).avoiding fails).count (fun l c => (responds l c).isSome) ls
      = (server ι file).count (fun l c => (responds l c).isSome) ls := tally_avoiding _ h hopens
  rw [responses, List.length_map, length_trace]
  exact hresponds.symm.trans (hbooks.trans hbegins)

/-! ## Every request comes to its end -/

/-- The steps that a request has still to take. -/
def stepsLeft : Option Frame → Nat
  | none => 0
  | some f =>
      match f.pc with
      | .lock => 8
      | .open1 => 7
      | .getlines => 6
      | .increment => 5
      | .open2 => 4
      | .write => 3
      | .unlock => 2
      | .respond => 1

omit [Fintype ι] [DecidableEq ι] in
theorem Effect.clock {j : ι} {s s' : Shared ι} {t t' : Option Frame} (h : Effect j s t s' t') :
    stepsLeft t' + 1 = stepsLeft t + 9 * t.isNone.toNat := by
  cases h <;> rfl

/-- A run takes nine steps a request, less those that its requests have still to take. -/
theorem length_le {n : Int} (hfile : readLines 0 (lines file) = .ok n)
    (h : (server ι file).Reaches ls c) (hopens : (server ι file).count fails ls = 0) :
    ls.length ≤ 9 * (server ι file).count begins ls := by
  have hbegins : ((server ι file).avoiding fails).count begins ls
      = (server ι file).count begins ls := tally_avoiding _ h hopens
  have hlength := (inv_inductive hfile).length_le_tally (k := 9) (p := begins)
    (μ := fun c : State ι => total stepsLeft c.threads) (by
      intro l c c' hc hnext
      obtain ⟨hok, hnext⟩ := avoiding_next.mp hnext
      have hclock := (hc.effect hfile hnext hok).clock
      rw [← begins_eq hnext] at hclock
      have htotal := Conf.total_step stepsLeft hnext
      omega) inv_start (exec_avoiding h hopens)
  have hstart : total stepsLeft (start ι file).threads = 0 := total_eq_zero fun _ => rfl
  rw [hstart, Nat.zero_add] at hlength
  rw [← hbegins]
  exact Nat.le_trans (Nat.le_add_right _ _) hlength

omit [Fintype ι] [DecidableEq ι] in
theorem fscounter_isSome {j : ι} {s : Shared ι} {f : Frame} (h : f.pc = .lock → s.mutex = none) :
    (fscounter j true s f).isSome := by
  unfold fscounter
  cases hpc : f.pc with
  | lock =>
      dsimp only
      rw [h hpc]
      rfl
  | getlines =>
      dsimp only
      split <;> rfl
  | _ => rfl

omit [Fintype ι] in
/-- While requests are in progress, one of them can take a step. -/
theorem fscounter_moves {n : Nat} (hfile : Holds n file) (hmax : n ≤ intMax)
    (h : (server ι file).Reaches ls c) (hopens : (server ι file).count fails ls = 0) {j : ι}
    (hj : c.threads j ≠ none) :
    ∃ i c', c.threads i ≠ none ∧ (server ι file).next (i, .step true) c = some c' := by
  have hI : Inv file c := (inv_inductive (hfile.read hmax)).exec inv_start (exec_avoiding h hopens)
  have hmoves : ∀ {i f}, c.threads i = some f → (f.pc = .lock → c.shared.mutex = none) →
      ∃ i c', c.threads i ≠ none ∧ (server ι file).next (i, .step true) c = some c' := by
    intro i f hf hlock
    have hsome : (code i (.step true) c.shared (c.threads i)).isSome := by
      rw [hf]
      exact fscounter_isSome hlock
    obtain ⟨c', hc'⟩ := Conf.step_isSome hsome
    exact ⟨i, c', by simp [hf], hc'⟩
  cases hmutex : c.shared.mutex with
  | none =>
      obtain ⟨f, hf⟩ := Option.ne_none_iff_exists'.mp hj
      exact hmoves hf fun _ => hmutex
  | some i =>
      -- the holder is not at the lock
      have hin := (hI.holder i).mpr hmutex
      cases hf : c.threads i with
      | none =>
          rw [hf] at hin
          cases hin
      | some f =>
          refine hmoves hf fun hpc => ?_
          obtain ⟨pc, i⟩ := f
          cases hpc
          rw [hf] at hin
          cases hin

/-! ## The responses -/

/-- When `k` requests are all done. -/
theorem counts_of_done {n k : Nat} (hfile : Holds n file) (hk : 1 ≤ k)
    (hmax : (n + k : Nat) ≤ intMax) (h : (server ι file).Reaches ls c)
    (hopens : (server ι file).count fails ls = 0)
    (hrequests : (server ι file).count begins ls = k) (hdone : ∀ j, c.threads j = none) :
    (responses file ls).Perm ((List.range k).map fun j => decimal (n + 1 + j : Nat))
      ∧ c.shared.file = decimal (n + k : Nat) := by
  have hread := hfile.read (by omega)
  obtain ⟨m, hperm, hvalue, hI⟩ := responded_perm hread h hopens hdone
  have hlength : m = k := by
    have heq := (requests_eq hread h hopens hdone).trans hrequests
    rw [responses, List.length_map, hperm.length_eq, List.length_iterate] at heq
    exact heq
  subst hlength
  rw [iterate_succ_eq hmax] at hperm
  rw [succ_iterate hmax] at hvalue
  have hfree : c.shared.mutex = none := by
    cases hmutex : c.shared.mutex with
    | none => rfl
    | some j =>
        have hin := (hI.holder j).mpr hmutex
        rw [hdone j] at hin
        cases hin
  rw [value, hfree] at hvalue
  dsimp only at hvalue
  refine ⟨?_, ?_⟩
  · have hmap := hperm.map decimal
    rw [List.map_map] at hmap
    exact hmap
  · rcases hI.kept fun j i hj => (nomatch (hdone j).symm.trans hj) with hsame | ⟨v, hlow, hhigh, hv⟩
    · rw [hsame, fileValue_of_read hread] at hvalue
      omega
    · rw [hv, fileValue_of_read (readLines_decimal hlow hhigh).1] at hvalue
      rw [hv, hvalue]

/-- **`/FScounter` counts**: if files can be opened, a run of `k` requests has at most `9 * k`
steps, and is not blocked while one of them is in progress: when none of the threads can go on,
all requests are done. They have then responded the numbers from `n + 1` to `n + k`, each of them
once, and `counter.txt` holds the last one. -/
theorem fscounter_counts {n k : Nat} (hfile : Holds n file) (hk : 1 ≤ k)
    (hmax : (n + k : Nat) ≤ intMax) (h : (server ι file).Reaches ls c)
    (hopens : (server ι file).count fails ls = 0)
    (hrequests : (server ι file).count begins ls = k) :
    ls.length ≤ 9 * k
      ∧ ((∀ j, c.threads j = none) ∨ ∃ j c', c.threads j ≠ none
        ∧ (server ι file).next (j, .step true) c = some c')
      ∧ ((∀ j, c.threads j = none) →
        (responses file ls).Perm ((List.range k).map fun j => decimal (n + 1 + j : Nat))
          ∧ c.shared.file = decimal (n + k : Nat)) := by
  refine ⟨?_, ?_, ?_⟩
  · rw [← hrequests]
    exact length_le (hfile.read (by omega)) h hopens
  · by_cases hdone : ∀ j, c.threads j = none
    · exact .inl hdone
    · obtain ⟨j, hj⟩ := not_forall.mp hdone
      exact .inr (fscounter_moves hfile (by omega) h hopens hj)
  · exact counts_of_done hfile hk hmax h hopens hrequests

/-- Two requests in a file that says 41; the second one to count is the first to respond. -/
theorem fscounter_counts_two :
    ∃ (ls : List (Fin 2 × Action Bool)) (c : State (Fin 2)),
      (server (Fin 2) "41\n".toList).Reaches ls c ∧ ls.length ≤ 9 * 2
        ∧ responses "41\n".toList ls = ["43".toList, "42".toList]
        ∧ (responses "41\n".toList ls).Perm [decimal 42, decimal 43]
        ∧ c.shared.file = decimal 43 := by
  let file : List Char := ['4', '1', '\n']
  let ls : List (Fin 2 × Action Bool) :=
    (0, .request) :: List.replicate 7 (0, .step true)
      ++ (1, .request) :: List.replicate 8 (1, .step true) ++ [(0, .step true)]
  have hfile : "41\n".toList = file := by decide +kernel
  rw [hfile]
  obtain ⟨c, hrun, hc⟩ := Option.any_eq_true _ _ |>.mp
    (show ((server (Fin 2) file).exec ls (start (Fin 2) file)).any
      (fun c => ∀ j, c.threads j = none) = true by decide +kernel)
  have hcounts := fscounter_counts (n := 41) (k := 2) (.inr (.inr (by decide +kernel)))
    (by decide) (by decide) hrun (by decide +kernel) (by decide +kernel)
  obtain ⟨hlength, -, hdone⟩ := hcounts
  obtain ⟨hresponses, hsaved⟩ := hdone (of_decide_eq_true hc)
  exact ⟨ls, c, hrun, hlength, by decide +kernel, hresponses, hsaved⟩

end CAdvanced.MyController.Fscounter
