import CAdvanced.MyController.Value

/-!
# MyController — Release

An exception of `std::stoi` leaves the handler of `/FScounter` between the lock and the
unlock, and nobody unlocks the mutex for it. That is the only way for the mutex to be kept,
and it takes a line that is no `int` (`badLine`); the handler itself never writes one.
-/

namespace CAdvanced.MyController.Fscounter

open Interleave System CInt CText

variable {ι : Type}

/-- Who holds the mutex is still in the locked part of the handler. -/
def Released (c : State ι) : Prop := ∀ j, c.shared.mutex = some j → inside (c.threads j) = true

/-- `std::stoi` throws an exception on a line of the file. -/
def badLine (file : List Char) : Bool := (lines file).any fun line => !(stoi line).isOk

/-- A request reads a file with such a line. -/
def throws (l : ι × Action Bool) (c : State ι) : Bool :=
  match c.threads l.1 with
  | some ⟨.getlines, _⟩ => badLine c.shared.file
  | _ => false

/-! ## One step -/

theorem readLines_isOk (i : Int) (ls : List (List Char)) :
    (readLines i ls).isOk = ls.all fun line => (stoi line).isOk := by
  unfold readLines
  induction ls generalizing i with
  | nil => rfl
  | cons l ls ih =>
      rw [List.foldlM_cons, List.all_cons]
      cases hl : stoi l with
      | error e => rfl
      | ok v => exact ih v

theorem readLines_bad (i : Int) (file : List Char) :
    badLine file = !(readLines i (lines file)).isOk := by
  rw [readLines_isOk, badLine, List.not_all_eq_any_not]

/-- **What a step of thread `j` does**: what it does when files can be opened and say
numbers, or it goes on without a file, or `std::stoi` throws. -/
theorem code_cases {j : ι} {a : Action Bool} {s s' : Shared ι} {t t' : Option Frame}
    (h : code j a s t = some (s', t')) :
    Effect j s t s' t'
      ∨ (∃ i, t = some ⟨.open1, i⟩ ∧ s' = s ∧ t' = some ⟨.increment, i⟩)
      ∨ (∃ i, t = some ⟨.open2, i⟩ ∧ s' = s ∧ t' = some ⟨.unlock, i⟩)
      ∨ ∃ i e, t = some ⟨.getlines, i⟩ ∧ readLines i (lines s.file) = .error e ∧ s' = s
        ∧ t' = none := by
  by_cases hopens : ∀ f, t = some f → f.pc = .open1 ∨ f.pc = .open2 → a ≠ .step false
  · by_cases hreads : ∀ i, t = some ⟨.getlines, i⟩ → ∃ v, readLines i (lines s.file) = .ok v
    · exact .inl (code_effect h hopens hreads)
    · push Not at hreads
      obtain ⟨i, rfl, hnot⟩ := hreads
      cases a with
      | request => cases h
      | step opened =>
          cases hread : readLines i (lines s.file) with
          | error e =>
              simp only [code, fscounter, hread] at h
              cases h
              exact .inr (.inr (.inr ⟨i, e, rfl, hread, rfl, rfl⟩))
          | ok v => exact absurd hread (hnot v)
  · push Not at hopens
    obtain ⟨⟨pc, i⟩, rfl, hpc, rfl⟩ := hopens
    rcases hpc with hpc | hpc
    · cases hpc
      cases h
      exact .inr (.inl ⟨i, rfl, rfl, rfl⟩)
    · cases hpc
      cases h
      exact .inr (.inr (.inl ⟨i, rfl, rfl, rfl⟩))

/-- A step throws, or moves the mutex as the handler moves in and out of its locked part. -/
theorem code_moves {j : ι} {a : Action Bool} {s s' : Shared ι} {t t' : Option Frame}
    (h : code j a s t = some (s', t')) :
    (∃ i, t = some ⟨.getlines, i⟩ ∧ badLine s.file = true ∧ s' = s ∧ t' = none)
      ∨ (∀ i, t = some ⟨.getlines, i⟩ → badLine s.file = false)
        ∧ Mutex.Moves j s.mutex (inside t) s'.mutex (inside t') := by
  rcases code_cases h with heffect | ⟨i, rfl, rfl, rfl⟩ | ⟨i, rfl, rfl, rfl⟩
    | ⟨i, e, rfl, hread, rfl, rfl⟩
  · refine .inr ⟨?_, heffect.moves⟩
    rintro i rfl
    cases heffect with
    | getlines hread => rw [readLines_bad i, hread]; rfl
  · exact .inr ⟨fun _ => nofun, .keep⟩
  · exact .inr ⟨fun _ => nofun, .keep⟩
  · exact .inl ⟨i, rfl, by rw [readLines_bad i, hread]; rfl, rfl, rfl⟩

/-! ## Over a run -/

variable [DecidableEq ι] {file : List Char}

/-- Whoever is in the locked part holds the mutex. -/
theorem owner_inductive : (server ι file).Inductive fun c =>
    ∀ j, inside (c.threads j) = true → c.shared.mutex = some j where
  init := fun _ => nofun
  step := by
    intro l c c' hc h k hk
    rcases code_moves (Conf.step_mover h) with ⟨i, hmover, -, hshared, hgone⟩ | ⟨-, hmoves⟩
    · rw [hshared]
      refine hc k ?_
      by_cases hkl : k = l.1
      · subst hkl
        rw [hgone] at hk
        cases hk
      · rwa [Conf.step_threads_ne h hkl] at hk
    · have howner : ∀ j, inside (c'.threads j) = true → c'.shared.mutex = some j :=
        hmoves.owner hc rfl rfl fun j hj => by rw [Conf.step_threads_ne h hj]
      exact howner k hk

/-- A step keeps the mutex from being kept, unless it throws. -/
theorem released_step {l : ι × Action Bool} {c c' : State ι}
    (howner : ∀ j, inside (c.threads j) = true → c.shared.mutex = some j) (hc : Released c)
    (h : (server ι file).next l c = some c') : Released c' ↔ throws l c = false := by
  rcases code_moves (Conf.step_mover h) with ⟨i, hmover, hbad, hshared, hgone⟩ | ⟨hgood, hmoves⟩
  · -- the handler is left with the mutex locked
    have hmutex := howner l.1 (by rw [hmover]; rfl)
    rw [throws, hmover]
    dsimp only
    rw [hbad]
    refine ⟨fun hreleased => ?_, nofun⟩
    have hin := hreleased l.1 (by rw [hshared]; exact hmutex)
    rw [hgone] at hin
    cases hin
  · have hfalse : throws l c = false := by
      unfold throws
      split
      · rename_i i hi
        exact hgood i hi
      · rfl
    refine ⟨fun _ => hfalse, fun _ j hj => ?_⟩
    have hbefore : ∀ j, inside (c.threads j) = true ↔ c.shared.mutex = some j :=
      fun j => ⟨howner j, hc j⟩
    have hafter : ∀ j, inside (c'.threads j) = true ↔ c'.shared.mutex = some j :=
      hmoves.holder hbefore rfl rfl fun j hj => by rw [Conf.step_threads_ne h hj]
    exact (hafter j).mpr hj

omit [DecidableEq ι] in
theorem released_start : Released (start ι file) := fun _ => nofun

/-- **The mutex is not kept** in a run just when no request reads a file with a line that is
no `int`. -/
theorem fscounter_releases_iff {ls : List (ι × Action Bool)} {c : State ι}
    (h : (server ι file).Reaches ls c) :
    (server ι file).Throughout Released ls (start ι file)
      ↔ (server ι file).count throws ls = 0 :=
  throughout_iff owner_inductive released_step owner_inductive.init released_start h

/-- Two requests, the first of which cannot open the file: both return, and the mutex is
free. -/
theorem fscounter_releases_iff_two :
    ∃ (ls : List (Fin 2 × Action Bool)) (c : State (Fin 2)),
      (server (Fin 2) ['x']).Reaches ls c ∧ responses ['x'] ls = [['1'], ['2']]
        ∧ c.shared.mutex = none
        ∧ (server (Fin 2) ['x']).Throughout Released ls (start (Fin 2) ['x']) := by
  let ls : List (Fin 2 × Action Bool) :=
    [(0, .request), (0, .step true), (0, .step false)] ++ List.replicate 5 (0, .step true)
      ++ (1, .request) :: List.replicate 8 (1, .step true)
  obtain ⟨c, hrun, hc⟩ := Option.any_eq_true _ _ |>.mp
    (show ((server (Fin 2) ['x']).exec ls (start (Fin 2) ['x'])).any
      (fun c => c.shared.mutex = none) = true by decide +kernel)
  exact ⟨ls, c, hrun, by decide +kernel, of_decide_eq_true hc,
    (fscounter_releases_iff hrun).mpr (by decide +kernel)⟩

/-- The file has a line `x`: the request is gone, and its mutex is locked. -/
theorem not_fscounter_releases :
    ¬ ∀ (file : List Char) (c : State (Fin 1)), (server (Fin 1) file).Reachable c → Released c := by
  intro hall
  obtain ⟨c, hrun, hc⟩ := Option.any_eq_true _ _ |>.mp
    (show ((server (Fin 1) ['x']).exec ((0, .request) :: List.replicate 3 (0, .step true))
        (start (Fin 1) ['x'])).any (fun c => c.shared.mutex = some 0 ∧ c.threads 0 = none) = true
      by decide +kernel)
  obtain ⟨hmutex, hgone⟩ := of_decide_eq_true hc
  have hin := hall ['x'] c ⟨_, hrun⟩ 0 hmutex
  rw [hgone] at hin
  cases hin

/-! ## Which files do it -/

/-- What is about to be written is an `int`. -/
def Fits (t : Option Frame) : Prop :=
  ∀ i, t = some ⟨.open2, i⟩ ∨ t = some ⟨.write, i⟩ → intMin ≤ i ∧ i ≤ intMax

/-- The file has no bad line, and will have none. -/
structure Clean (c : State ι) : Prop where
  file : badLine c.shared.file = false
  fits : ∀ j, Fits (c.threads j)

omit [DecidableEq ι] in
theorem Effect.clean {j : ι} {s s' : Shared ι} {t t' : Option Frame} (h : Effect j s t s' t')
    (hfile : badLine s.file = false) (hfits : Fits t) : badLine s'.file = false ∧ Fits t' := by
  cases h with
  | @increment i =>
      refine ⟨hfile, ?_⟩
      rintro v (hv | hv)
      · cases hv
        exact succ_fits i
      · cases hv
  | @open2 i =>
      refine ⟨rfl, ?_⟩
      rintro v (hv | hv)
      · cases hv
      · cases hv
        exact hfits i (.inl rfl)
  | @write i =>
      obtain ⟨hlow, hhigh⟩ := hfits i (.inr rfl)
      refine ⟨?_, by rintro v (hv | hv) <;> cases hv⟩
      rw [readLines_bad 0, (readLines_decimal hlow hhigh).1]
      rfl
  | _ => exact ⟨hfile, by rintro v (hv | hv) <;> cases hv⟩

omit [DecidableEq ι] in
theorem code_clean {j : ι} {a : Action Bool} {s s' : Shared ι} {t t' : Option Frame}
    (h : code j a s t = some (s', t')) (hfile : badLine s.file = false) (hfits : Fits t) :
    badLine s'.file = false ∧ Fits t' := by
  rcases code_cases h with heffect | ⟨i, rfl, rfl, rfl⟩ | ⟨i, rfl, rfl, rfl⟩
    | ⟨i, e, rfl, hread, rfl, rfl⟩
  · exact heffect.clean hfile hfits
  · exact ⟨hfile, by rintro v (hv | hv) <;> cases hv⟩
  · exact ⟨hfile, by rintro v (hv | hv) <;> cases hv⟩
  · exact ⟨hfile, by rintro v (hv | hv) <;> cases hv⟩

/-- A file without a bad line never gets one. -/
theorem clean_inductive (hfile : badLine file = false) : (server ι file).Inductive Clean where
  init := ⟨hfile, fun _ _ => (·.elim nofun nofun)⟩
  step := by
    intro l c c' hc h
    obtain ⟨hfile', hmover⟩ := code_clean (Conf.step_mover h) hc.file (hc.fits l.1)
    refine ⟨hfile', ?_⟩
    exact Conf.step_forall (A := fun _ t => Fits t) h hmover fun k _ => hc.fits k

/-- A request, alone, that reads a bad line. -/
theorem exec_bad_line (hfile : badLine file = true) (j : ι) :
    ∃ c, (server ι file).exec ((j, .request) :: List.replicate 3 (j, .step true)) (start ι file)
        = some c ∧ c.shared.mutex = some j ∧ c.threads j = none := by
  have hread : ∃ e, readLines 0 (lines file) = .error e := by
    have hbad := readLines_bad 0 file
    cases hread : readLines 0 (lines file) with
    | error e => exact ⟨e, rfl⟩
    | ok v =>
        rw [hread, hfile] at hbad
        cases hbad
  obtain ⟨e, hread⟩ := hread
  have hsolo : soloRun (code j) (.request :: List.replicate 3 (.step true))
      ((start ι file).shared, (start ι file).threads j) = some (⟨some j, file⟩, none) := by
    rw [soloRun_cons (y := (⟨none, file⟩, some ⟨.lock, 0⟩)) rfl, List.replicate_succ,
      soloRun_cons (y := (⟨some j, file⟩, some ⟨.open1, 0⟩)) rfl, List.replicate_succ,
      soloRun_cons (y := (⟨some j, file⟩, some ⟨.getlines, 0⟩)) rfl, List.replicate_succ]
    apply soloRun_cons
    simp only [code, fscounter, hread]
  have hexec := exec_of_soloRun (S := server ι file) (f := code) (fun _ _ => rfl) hsolo
  rw [List.map_cons, List.map_replicate] at hexec
  exact ⟨_, hexec, rfl, Function.update_self ..⟩

/-- **The files that do it**: the mutex is never kept, whatever the requests and the openings,
just when every line of the file is an `int` for `std::stoi`. -/
theorem released_iff_file [Nonempty ι] :
    (∀ c, (server ι file).Reachable c → Released c) ↔ badLine file = false := by
  constructor
  · intro hall
    cases hfile : badLine file with
    | false => rfl
    | true =>
        obtain ⟨j⟩ := ‹Nonempty ι›
        obtain ⟨c, hrun, hmutex, hgone⟩ := exec_bad_line hfile j
        have hin := hall c ⟨_, hrun⟩ j hmutex
        rw [hgone] at hin
        cases hin
  · rintro hfile c ⟨ls, hrun⟩
    have hbudget : (server ι file).tally throws ls (start ι file) = 0 := by
      refine tally_eq_zero_of_budget (I := fun _ => Clean) (p := fun _ _ => false) ?_
        (clean_inductive hfile).init hrun
      intro n l c c' hc hnext
      refine ⟨?_, (clean_inductive hfile).step hc hnext⟩
      unfold throws
      split
      · exact hc.file
      · rfl
    have hthroughout := (throughout_iff owner_inductive released_step owner_inductive.init
      released_start hrun).mpr hbudget
    exact hthroughout.last hrun

end CAdvanced.MyController.Fscounter
