import CAdvanced.FileServerSignals.Model
import Mathlib.Logic.Function.Basic

/-!
# FileServerSignals — Files

What `AsyncreadFromFile` does to the files, in `file-server-async.c` as in
`file-server-signals.c`: when `readFromFile` has failed, it removes the file before it opens
it. Names are of any type `π`, directories of any type `δ`.
-/

namespace CAdvanced.FileServerSignals

open FileServerMain

/-- A file system, as the server sees it: the files and what is in them, which of them it may
read, the directory that a name is in, and which directories it may write. -/
structure FileSystem (π δ : Type*) where
  files : π → Option (List UInt8)
  readable : π → Bool
  directory : π → δ
  writable : δ → Bool

/-- What the calls answer where the file system leaves it open: whether `fopen` and `malloc`
succeed, how many bytes `fread` delivers, the descriptor that `open` returns, and the results
of `aio_read`, `aio_error` and `aio_return`. -/
structure Calls where
  fopen : Bool
  malloc : Bool
  fread : Nat
  file : Int
  aioRead : Int
  aioError : Int
  aioReturn : Int
  deriving DecidableEq, Repr

namespace FileSystem

variable {π δ : Type*} [DecidableEq π] (fs : FileSystem π δ) (filename : π)

/-- The file is there, and may be read. -/
def canOpen : Bool := (fs.files filename).isSome && fs.readable filename

/-- `unlink`. -/
def unlink : FileSystem π δ :=
  if (fs.files filename).isSome && fs.writable (fs.directory filename) then
    { fs with files := Function.update fs.files filename none }
  else fs

/-- The calls of `AsyncreadFromFile`. The flags of `open`, `O_RDONLY | S_IRUSR | S_IWUSR`,
let it neither create a file nor empty one. -/
def asyncCall (k : Calls) : AsyncCall where
  sync := ⟨fs.canOpen filename && k.fopen, (fs.files filename).getD [], k.malloc, k.fread⟩
  file := if (fs.unlink filename).canOpen filename then k.file else -1
  aioRead := k.aioRead
  aioError := k.aioError
  aioReturn := k.aioReturn

/-- `AsyncreadFromFile`, and the file system that it leaves behind. -/
def asyncreadFromFile (k : Calls) (r : Resources) : (Returned × Resources) × FileSystem π δ :=
  let f := fs.asyncCall filename k
  (FileServerSignals.asyncreadFromFile f r,
    if (readFromFile f.sync r).1.isSome then fs else fs.unlink filename)

/-- `readFromFile` reads the file: it is there and may be read, and no call fails. -/
def ReadsWhole (k : Calls) : Prop :=
  ∃ content, fs.files filename = some content ∧ fs.readable filename = true ∧ k.fopen = true
    ∧ k.malloc = true ∧ k.fread = content.length

/-! ## What is removed -/

theorem unlink_files_iff :
    (fs.unlink filename).files = fs.files
      ↔ fs.files filename = none ∨ fs.writable (fs.directory filename) = false := by
  unfold unlink
  split
  · next h =>
    obtain ⟨hthere, hwritable⟩ := Bool.and_eq_true_iff.mp h
    constructor
    · intro hsame
      have hgone : (Function.update fs.files filename none) filename = none :=
        Function.update_self _ _ _
      exact .inl ((congrFun hsame filename).symm.trans hgone)
    · rintro (hnone | hnot)
      · rw [hnone] at hthere
        cases hthere
      · rw [hnot] at hwritable
        cases hwritable
  · next h =>
    refine iff_of_true rfl ?_
    cases hfile : fs.files filename with
    | none => exact .inl rfl
    | some content =>
        rw [hfile, Option.isSome_some, Bool.true_and] at h
        exact .inr ((Bool.not_eq_true _).mp h)

theorem unlink_files_of_ne {p : π} (h : p ≠ filename) :
    (fs.unlink filename).files p = fs.files p := by
  unfold unlink
  split
  · exact Function.update_of_ne h _ _
  · rfl

theorem succeeds_iff (k : Calls) :
    (fs.asyncCall filename k).sync.Succeeds ↔ fs.ReadsWhole filename k := by
  unfold FileCall.Succeeds ReadsWhole asyncCall canOpen
  dsimp only
  cases hfile : fs.files filename with
  | none => exact iff_of_false nofun nofun
  | some content =>
      rw [Option.isSome_some, Bool.true_and, Option.getD_some, Bool.and_eq_true, and_assoc]
      constructor
      · rintro ⟨hreadable, hfopen, hmalloc, hfread⟩
        exact ⟨content, rfl, hreadable, hfopen, hmalloc, hfread⟩
      · rintro ⟨_, hsame, hrest⟩
        cases hsame
        exact hrest

/-- No other file is touched. -/
theorem asyncreadFromFile_of_ne {p : π} (h : p ≠ filename) (k : Calls) (r : Resources) :
    (fs.asyncreadFromFile filename k r).2.files p = fs.files p := by
  unfold asyncreadFromFile
  dsimp only
  split
  · rfl
  · exact fs.unlink_files_of_ne filename h

/-- **The files are left as they are** just when the file that is asked for is not there,
or is in a directory that may not be written, or is read at the first attempt. -/
theorem files_unchanged_iff (k : Calls) (r : Resources) :
    (fs.asyncreadFromFile filename k r).2.files = fs.files
      ↔ fs.files filename = none ∨ fs.writable (fs.directory filename) = false
        ∨ fs.ReadsWhole filename k := by
  unfold asyncreadFromFile
  dsimp only
  rw [← fs.succeeds_iff filename k, ← or_assoc, ← fs.unlink_files_iff filename]
  split
  · next h => exact iff_of_true rfl (.inr ((readFromFile_isSome _ r).mp h))
  · next h => exact (or_iff_left fun hsync => h ((readFromFile_isSome _ r).mpr hsync)).symm

/-- A file that may not be read, in a directory that may be written: it is gone. -/
theorem not_files_unchanged :
    ¬ ∀ (fs : FileSystem (List UInt8) Unit) (filename : List UInt8) (k : Calls) (r : Resources),
      (fs.asyncreadFromFile filename k r).2.files = fs.files := by
  intro hall
  let fs : FileSystem (List UInt8) Unit :=
    ⟨fun p => if p = [97] then some [104, 105] else none, fun _ => false, fun _ => (), fun _ => true⟩
  have hsame := hall fs [97] ⟨true, true, 2, 3, 0, 0, 0⟩ ⟨0, 0⟩
  exact absurd (congrFun hsame [97]) (by decide)

end FileSystem

end CAdvanced.FileServerSignals
