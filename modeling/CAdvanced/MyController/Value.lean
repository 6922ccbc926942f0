import CAdvanced.Interleave.Tickets
import CAdvanced.MyController.Model

/-!
# MyController — Value

The count of `/FScounter`, if its file can always be opened. Only the holder of the mutex is
at the file (`Inv`), so the count has one value at any time: what the file says, or what the
holder is about to write into the file that it has just emptied (`value`). Opening the file
for writing gives out the next value (`value_step`), and a request holds on to its value
until it responds it (`Effect.tickets`).
-/

namespace CAdvanced.MyController.Fscounter

open Interleave System CInt CText

variable {ι : Type}

/-- A file cannot be opened. -/
def fails (l : ι × Action Bool) (c : State ι) : Bool :=
  match l.2, c.threads l.1 with
  | .step false, some f => f.pc = .open1 ∨ f.pc = .open2
  | _, _ => false

/-- A thread takes on a request. -/
def begins (l : ι × Action Bool) (_ : State ι) : Bool := l.2 = .request

/-- `counter.txt` is empty, for a count of zero, or holds the one line that says `n`. -/
def Holds (n : Nat) (file : List Char) : Prop :=
  n = 0 ∧ file = [] ∨ file = decimal n ∨ file = decimal n ++ ['\n']

/-- `i++` on an `int`. -/
def succ (v : Int) : Int := signed 32 (v + 1)

/-- The number that `counter.txt` says. -/
def fileValue (file : List Char) : Int :=
  match readLines 0 (lines file) with
  | .ok v => v
  | .error _ => 0

/-- The count, as the thread in the locked part of the handler knows it. -/
def valueOf (file : List Char) : Option Frame → Int
  | some ⟨.write, i⟩ => i
  | _ => fileValue file

/-- **The count**. -/
def value (c : State ι) : Int :=
  match c.shared.mutex with
  | none => fileValue c.shared.file
  | some j => valueOf c.shared.file (c.threads j)

/-- The value that a thread is given as it opens the file for writing. -/
def issues (l : ι × Action Bool) (c : State ι) : Option Int :=
  match c.threads l.1 with
  | some ⟨.open2, i⟩ => some i
  | _ => none

/-- The value that a request has been given, and not responded yet. -/
def holds : Option Frame → Option Int
  | some ⟨.write, i⟩ | some ⟨.unlock, i⟩ | some ⟨.respond, i⟩ => some i
  | _ => none

/-- The thread is in a request. -/
def busy : Option Frame → Nat
  | none => 0
  | some _ => 1

/-- The thread stands between the lock and the unlock. -/
def inside : Option Frame → Bool
  | some ⟨.lock, _⟩ | some ⟨.respond, _⟩ | none => false
  | some _ => true

/-! ## What is read and written -/

theorem readLines_decimal {v : Int} (hlow : intMin ≤ v) (hhigh : v ≤ intMax) :
    readLines 0 (lines (decimal v)) = .ok v
      ∧ readLines 0 (lines (decimal v ++ ['\n'])) = .ok v := by
  obtain ⟨hline, hline'⟩ := lines_of_notMem (newline_notMem_decimal v) (decimal_ne_nil v)
  have hread : readLines 0 [decimal v] = .ok v := by
    unfold readLines
    rw [List.foldlM_cons, stoi_decimal hlow hhigh]
    rfl
  rw [hline, hline']
  exact ⟨hread, hread⟩

theorem Holds.read {n : Nat} {file : List Char} (h : Holds n file) (hmax : n ≤ intMax) :
    readLines 0 (lines file) = .ok n := by
  have hlow : intMin ≤ n := by
    unfold intMin
    omega
  rcases h with ⟨rfl, rfl⟩ | rfl | rfl
  · rfl
  · exact (readLines_decimal hlow hmax).1
  · exact (readLines_decimal hlow hmax).2

theorem fileValue_of_read {file : List Char} {v : Int} (h : readLines 0 (lines file) = .ok v) :
    fileValue file = v := by
  unfold fileValue
  rw [h]

theorem succ_fits (v : Int) : intMin ≤ succ v ∧ succ v ≤ intMax := by
  have hlow := Int.le_bmod (x := v + 1) (m := 2 ^ 32) (by decide)
  have hhigh := Int.bmod_lt (x := v + 1) (m := 2 ^ 32) (by decide)
  unfold succ signed intMin intMax
  omega

theorem succ_of_lt {v : Int} (hlow : intMin ≤ v) (hhigh : v < intMax) : succ v = v + 1 := by
  unfold intMin at hlow
  unfold intMax at hhigh
  apply signed_of_fits <;> omega

/-- Counting on from `n`. -/
theorem succ_iterate {n k : Nat} (h : (n + k : Nat) ≤ intMax) : succ^[k] n = (n + k : Nat) := by
  induction k with
  | zero => rfl
  | succ k ih =>
      rw [Function.iterate_succ_apply', ih (by omega), succ_of_lt]
      · omega
      · unfold intMin
        omega
      · omega

/-- The values that are given out. -/
theorem iterate_succ_eq {n k : Nat} (h : (n + k : Nat) ≤ intMax) :
    List.iterate succ (succ n) k = (List.range k).map fun j => ((n + 1 + j : Nat) : Int) := by
  rw [← List.range_map_iterate]
  apply List.map_congr_left
  intro j hj
  have hlt : j < k := List.mem_range.mp hj
  rw [← Function.iterate_succ_apply, succ_iterate (by omega)]
  congr 1
  omega

/-! ## One step -/

/-- What a request knows of the file. -/
def Frame.Ok (file : List Char) (f : Frame) : Prop :=
  match f.pc with
  | .lock | .open1 | .getlines => f.i = 0
  | .increment => readLines 0 (lines file) = .ok f.i
  | .open2 => ∃ v, readLines 0 (lines file) = .ok v ∧ f.i = succ v
  | .write => intMin ≤ f.i ∧ f.i ≤ intMax
  | .unlock | .respond => True

/-- The file is as it was at the start, or holds a number that has been written. -/
def Kept (file now : List Char) : Prop :=
  now = file ∨ ∃ v, intMin ≤ v ∧ v ≤ intMax ∧ now = decimal v

/-- Only the holder of the mutex is at the file, which holds a number when nobody is about
to write one. -/
structure Inv (file : List Char) (c : State ι) : Prop where
  holder : ∀ j, inside (c.threads j) = true ↔ c.shared.mutex = some j
  ok : ∀ j f, c.threads j = some f → f.Ok c.shared.file
  kept : (∀ j i, c.threads j ≠ some ⟨.write, i⟩) → Kept file c.shared.file

/-- What a request outside the locked part knows has nothing to do with the file. -/
theorem ok_of_outside {f : Frame} (h : inside (some f) = false) {file file' : List Char}
    (hok : f.Ok file) : f.Ok file' := by
  obtain ⟨pc, i⟩ := f
  cases pc with
  | lock => exact hok
  | respond => exact trivial
  | _ => cases h

/-- What a step of thread `j` does, when files can be opened and say numbers. -/
inductive Effect (j : ι) (s : Shared ι) : Option Frame → Shared ι → Option Frame → Prop
  | request : Effect j s none s (some ⟨.lock, 0⟩)
  | lock {i : Int} (hfree : s.mutex = none) :
      Effect j s (some ⟨.lock, i⟩) { s with mutex := some j } (some ⟨.open1, i⟩)
  | open1 {i : Int} : Effect j s (some ⟨.open1, i⟩) s (some ⟨.getlines, i⟩)
  | getlines {i v : Int} (hread : readLines i (lines s.file) = .ok v) :
      Effect j s (some ⟨.getlines, i⟩) s (some ⟨.increment, v⟩)
  | increment {i : Int} : Effect j s (some ⟨.increment, i⟩) s (some ⟨.open2, succ i⟩)
  | open2 {i : Int} : Effect j s (some ⟨.open2, i⟩) { s with file := [] } (some ⟨.write, i⟩)
  | write {i : Int} :
      Effect j s (some ⟨.write, i⟩) { s with file := decimal i } (some ⟨.unlock, i⟩)
  | unlock {i : Int} :
      Effect j s (some ⟨.unlock, i⟩) { s with mutex := none } (some ⟨.respond, i⟩)
  | respond {i : Int} : Effect j s (some ⟨.respond, i⟩) s none

variable {j : ι} {s s' : Shared ι} {t t' : Option Frame}

theorem code_effect {a : Action Bool} (h : code j a s t = some (s', t'))
    (hopens : ∀ f, t = some f → f.pc = .open1 ∨ f.pc = .open2 → a ≠ .step false)
    (hreads : ∀ i, t = some ⟨.getlines, i⟩ → ∃ v, readLines i (lines s.file) = .ok v) :
    Effect j s t s' t' := by
  cases a with
  | request =>
      cases t with
      | none =>
          cases h
          exact .request
      | some f => cases h
  | step opened =>
      cases t with
      | none => cases h
      | some f =>
          obtain ⟨pc, i⟩ := f
          cases pc with
          | lock =>
              simp only [code, fscounter, Option.map_eq_some_iff, Mutex.lock_eq_some] at h
              obtain ⟨m, ⟨hfree, rfl⟩, h⟩ := h
              cases h
              exact .lock hfree
          | open1 =>
              cases opened with
              | false => exact absurd rfl (hopens _ rfl (.inl rfl))
              | true =>
                  cases h
                  exact .open1
          | getlines =>
              obtain ⟨v, hread⟩ := hreads i rfl
              simp only [code, fscounter, hread] at h
              cases h
              exact .getlines hread
          | open2 =>
              cases opened with
              | false => exact absurd rfl (hopens _ rfl (.inr rfl))
              | true =>
                  cases h
                  exact .open2
          | increment =>
              cases h
              exact .increment
          | write =>
              cases h
              exact .write
          | unlock =>
              cases h
              exact .unlock
          | respond =>
              cases h
              exact .respond

theorem Effect.moves (h : Effect j s t s' t') :
    Mutex.Moves j s.mutex (inside t) s'.mutex (inside t') := by
  cases h with
  | lock hfree =>
      rw [hfree]
      exact .lock
  | unlock => exact .unlock
  | _ => exact .keep

/-- Outside the locked part, a step leaves the file alone. -/
theorem Effect.file (h : Effect j s t s' t') : s'.file = s.file ∨ inside t = true := by
  cases h with
  | open2 | write => exact .inr rfl
  | _ => exact .inl rfl

theorem Effect.ok (h : Effect j s t s' t') (hok : ∀ f, t = some f → f.Ok s.file) :
    ∀ f, t' = some f → f.Ok s'.file := by
  intro f' hf'
  cases h with
  | request =>
      cases hf'
      exact rfl
  | lock | open1 =>
      cases hf'
      have hi := hok _ rfl
      exact hi
  | @getlines i v hread =>
      cases hf'
      have hi : i = 0 := hok _ rfl
      subst hi
      exact hread
  | @increment i =>
      cases hf'
      exact ⟨i, hok _ rfl, rfl⟩
  | open2 =>
      cases hf'
      obtain ⟨v, -, hi⟩ := hok _ rfl
      dsimp only at hi
      show intMin ≤ _ ∧ _ ≤ intMax
      rw [hi]
      exact succ_fits v
  | write | unlock =>
      cases hf'
      exact trivial
  | respond => cases hf'

theorem Effect.kept {file : List Char} (h : Effect j s t s' t')
    (hok : ∀ f, t = some f → f.Ok s.file)
    (hbefore : (∀ i, t ≠ some ⟨.write, i⟩) → Kept file s.file)
    (hafter : ∀ i, t' ≠ some ⟨.write, i⟩) : Kept file s'.file := by
  cases h with
  | open2 => exact absurd rfl (hafter _)
  | @write i =>
      obtain ⟨hlow, hhigh⟩ : intMin ≤ i ∧ i ≤ intMax := hok _ rfl
      exact .inr ⟨i, hlow, hhigh, rfl⟩
  | _ => exact hbefore fun _ => nofun

/-- The mover is at the file before or after its step, or leaves everything alone. -/
theorem Effect.places (h : Effect j s t s' t') :
    (inside t = false ∧ s' = s ∧ ∀ i, t ≠ some ⟨.open2, i⟩)
      ∨ (inside t = true ∨ inside t' = true)
        ∧ (inside t = true ∨ s.mutex = none ∧ inside t = false)
        ∧ (inside t' = true ∨ s'.mutex = none ∧ inside t' = false) := by
  cases h with
  | request | respond => exact .inl ⟨rfl, rfl, fun _ => nofun⟩
  | lock hfree => exact .inr ⟨.inr rfl, .inr ⟨hfree, rfl⟩, .inl rfl⟩
  | unlock => exact .inr ⟨.inl rfl, .inl rfl, .inr ⟨rfl, rfl⟩⟩
  | _ => exact .inr ⟨.inl rfl, .inl rfl, .inl rfl⟩

/-- What a step does to the count, as the mover knows it. -/
theorem Effect.value (h : Effect j s t s' t') (hok : ∀ f, t = some f → f.Ok s.file)
    (hin : inside t = true ∨ inside t' = true) :
    (∀ i, t ≠ some ⟨.open2, i⟩) ∧ valueOf s'.file t' = valueOf s.file t
      ∨ ∃ i, t = some ⟨.open2, i⟩ ∧ i = succ (valueOf s.file t) ∧ valueOf s'.file t' = i := by
  cases h with
  | @open2 i =>
      obtain ⟨v, hread, hi⟩ : ∃ v, readLines 0 (lines s.file) = .ok v ∧ i = succ v := hok _ rfl
      refine .inr ⟨i, rfl, ?_, rfl⟩
      rw [hi, valueOf, fileValue_of_read hread]
      exact nofun
  | @write i =>
      obtain ⟨hlow, hhigh⟩ : intMin ≤ i ∧ i ≤ intMax := hok _ rfl
      exact .inl ⟨fun _ => nofun, fileValue_of_read (readLines_decimal hlow hhigh).1⟩
  | request | respond => exact hin.elim nofun nofun
  | _ => exact .inl ⟨fun _ => nofun, rfl⟩

/-- A request holds on to the value that it is given until it responds it. -/
theorem Effect.tickets {l : ι × Action Bool} {c : State ι}
    (h : Effect l.1 c.shared (c.threads l.1) s' t') :
    ((holds t').toList ++ (responds l c).toList).Perm
      ((holds (c.threads l.1)).toList ++ (issues l c).toList) := by
  unfold responds issues
  generalize c.threads l.1 = t at h
  cases h <;> exact List.Perm.refl _

/-- A request is taken on, or goes on, or is responded. -/
theorem Effect.books {l : ι × Action Bool} {c : State ι}
    (h : Effect l.1 c.shared (c.threads l.1) s' t') :
    busy t' + (responds l c).isSome.toNat
      = busy (c.threads l.1) + (c.threads l.1).isNone.toNat := by
  unfold responds
  generalize c.threads l.1 = t at h
  cases h <;> rfl

/-! ## In every state of a run -/

section Run
variable [DecidableEq ι] {file : List Char} {n : Int}

omit [DecidableEq ι] in
theorem inv_start : Inv file (start ι file) :=
  ⟨fun _ => ⟨nofun, nofun⟩, fun _ _ => nofun, fun _ => .inl rfl⟩

omit [DecidableEq ι] in
/-- While somebody is in the locked part, nobody else is about to write. -/
theorem Inv.nobody_writes {c : State ι} (hI : Inv file c) (hj : inside (c.threads j) = true)
    (hnot : ∀ i, c.threads j ≠ some ⟨.write, i⟩) (k : ι) (i : Int) :
    c.threads k ≠ some ⟨.write, i⟩ := by
  intro hk
  have hmutex := (hI.holder k).mp (by rw [hk]; rfl)
  rw [(hI.holder j).mp hj] at hmutex
  cases hmutex
  exact hnot i hk

omit [DecidableEq ι] in
/-- The file says a number when nobody is about to write one. -/
theorem Inv.says_number {c : State ι} (hI : Inv file c) (hfile : readLines 0 (lines file) = .ok n)
    (hnobody : ∀ j i, c.threads j ≠ some ⟨.write, i⟩) :
    ∃ v, readLines 0 (lines c.shared.file) = .ok v := by
  rcases hI.kept hnobody with hsame | ⟨v, hlow, hhigh, hv⟩
  · rw [hsame]
    exact ⟨n, hfile⟩
  · rw [hv]
    exact ⟨v, (readLines_decimal hlow hhigh).1⟩

/-- One step of a run in which files can be opened. -/
theorem Inv.effect {l : ι × Action Bool} {c c' : State ι} (hI : Inv file c)
    (hfile : readLines 0 (lines file) = .ok n) (h : (server ι file).next l c = some c')
    (hopens : fails l c = false) :
    Effect l.1 c.shared (c.threads l.1) c'.shared (c'.threads l.1) := by
  apply code_effect (Conf.step_mover h)
  · rintro f hf hpc haction
    rw [fails, haction, hf] at hopens
    exact of_decide_eq_false hopens hpc
  · intro i hf
    have hzero : i = 0 := hI.ok _ _ hf
    rw [hzero]
    apply hI.says_number hfile
    exact hI.nobody_writes (j := l.1) (by rw [hf]; rfl) (by rw [hf]; exact fun _ => nofun)

theorem Inv.step {l : ι × Action Bool} {c c' : State ι} (hI : Inv file c)
    (hfile : readLines 0 (lines file) = .ok n) (h : (server ι file).next l c = some c')
    (hopens : fails l c = false) : Inv file c' := by
  have heffect := hI.effect hfile h hopens
  refine ⟨?holder, ?ok, ?kept⟩
  case holder =>
    exact heffect.moves.holder hI.holder rfl rfl fun k hk => by rw [Conf.step_threads_ne h hk]
  case ok =>
    apply Conf.step_forall (A := fun s t => ∀ f, t = some f → Frame.Ok s.file f) h
    · exact heffect.ok (hI.ok l.1)
    · intro k hk f hf
      cases hin : inside (some f) with
      | false => exact ok_of_outside hin (hI.ok k f hf)
      | true =>
          -- it holds the mutex, so the mover is not at the file
          rcases heffect.file with hsame | hmover
          · rw [hsame]
            exact hI.ok k f hf
          · have hholder := (hI.holder k).mp (hf ▸ hin)
            rw [(hI.holder l.1).mp hmover] at hholder
            exact absurd (Option.some.inj hholder).symm hk
  case kept =>
    intro hnobody
    refine heffect.kept (hI.ok l.1) (fun hmover => hI.kept fun j i hj => ?_) (hnobody l.1)
    by_cases hjl : j = l.1
    · subst hjl
      exact hmover i hj
    · exact hnobody j i (by rw [Conf.step_threads_ne h hjl, hj])

omit [DecidableEq ι] in
/-- The count is what the thread in the locked part knows, or what the file says. -/
theorem Inv.value_eq {c : State ι} (hI : Inv file c) {j : ι}
    (hj : inside (c.threads j) = true ∨ c.shared.mutex = none ∧ inside (c.threads j) = false) :
    value c = valueOf c.shared.file (c.threads j) := by
  unfold value
  rcases hj with hin | ⟨hfree, hout⟩
  · rw [(hI.holder j).mp hin]
  · rw [hfree]
    cases hf : c.threads j with
    | none => rfl
    | some f =>
        obtain ⟨pc, i⟩ := f
        rw [hf] at hout
        cases pc with
        | lock | respond => rfl
        | _ => cases hout

/-- **The count goes up by one** where a value is given out, and only there. -/
theorem value_step {l : ι × Action Bool} {c c' : State ι} (hI : Inv file c)
    (hfile : readLines 0 (lines file) = .ok n) (h : (server ι file).next l c = some c')
    (hopens : fails l c = false) :
    issues l c = none ∧ value c' = value c
      ∨ issues l c = some (succ (value c)) ∧ value c' = succ (value c) := by
  have heffect := hI.effect hfile h hopens
  have hI' := hI.step hfile h hopens
  have hnone : (∀ i, c.threads l.1 ≠ some ⟨.open2, i⟩) → issues l c = none := by
    intro hnot
    unfold issues
    split
    · rename_i i hi
      exact absurd hi (hnot i)
    · rfl
  rcases heffect.places with ⟨hout, hshared, hnot⟩ | ⟨hin, hbefore, hafter⟩
  · -- the holder, if there is one, is somebody else
    refine .inl ⟨hnone hnot, ?_⟩
    unfold value
    rw [hshared]
    cases hmutex : c.shared.mutex with
    | none => rfl
    | some k =>
        have hk : k ≠ l.1 := by
          rintro rfl
          rw [(hI.holder _).mpr hmutex] at hout
          cases hout
        dsimp only
        rw [Conf.step_threads_ne h hk]
  · rw [hI.value_eq hbefore, hI'.value_eq hafter]
    rcases heffect.value (hI.ok l.1) hin with ⟨hnot, hsame⟩ | ⟨i, ht, hi, hvalue⟩
    · exact .inl ⟨hnone hnot, hsame⟩
    · have hissued : issues l c = some i := by rw [issues, ht]
      exact .inr ⟨hissued.trans (congrArg some hi), hvalue.trans hi⟩

/-- What is kept in a run in which files can be opened. -/
theorem inv_inductive (hfile : readLines 0 (lines file) = .ok n) :
    ((server ι file).avoiding fails).Inductive (Inv file) where
  init := inv_start
  step := by
    intro l c c' hI h
    obtain ⟨hopens, hnext⟩ := avoiding_next.mp h
    exact hI.step hfile hnext hopens

end Run

end CAdvanced.MyController.Fscounter
