import CAdvanced.CText.Format
import Mathlib.Data.UInt

/-!
# Sysinfo — Model

What `sysinfo.c` asks the kernel, and what it prints: a line for each answer. The program of
the exercise (`main`) prints three blocks of such lines; `print_info` of the easy server,
which has another file of this name, writes some of them into a buffer.
-/

namespace CAdvanced.Sysinfo

open CText

/-- What is printed of a `struct sysinfo`. -/
structure Info where
  uptime : Int64
  totalram : UInt64
  freeram : UInt64
  procs : UInt16
  memUnit : UInt32
  deriving DecidableEq

/-- What `gethostname(name, 255)` leaves in `name`: a string that fits. -/
structure Hostname where
  text : List Char
  nul_notMem : '\x00' ∉ text
  length_lt : text.length < 255

/-- `struct utsname`, each field a string. -/
structure Utsname where
  sysname : List Char
  nodename : List Char
  release : List Char
  version : List Char
  machine : List Char
  deriving DecidableEq

/-- A call of `printf`: its format and its arguments. -/
abbrev Line : Type := List Piece × List Arg

/-- `"Hostname: %s\n"`. -/
def hostnameLine (name : Hostname) : Line :=
  ([.text "Hostname: ".toList, .string, .text ['\n']], [.string name.text])

/-- `"Uptime: %ld second(s)\n"`. -/
def uptimeLine (info : Info) : Line :=
  ([.text "Uptime: ".toList, .number, .text " second(s)\n".toList], [.number info.uptime.toInt])

/-- `"Process count: %d\n"`. -/
def procsLine (info : Info) : Line :=
  ([.text "Process count: ".toList, .number, .text ['\n']], [.number info.procs.toNat])

/-- `"Total RAM: %lu Byte(s)\n"`. -/
def totalramLine (info : Info) : Line :=
  ([.text "Total RAM: ".toList, .number, .text " Byte(s)\n".toList],
    [.number info.totalram.toNat])

/-- `"Free RAM: %lu Byte(s)\n"`. -/
def freeramLine (info : Info) : Line :=
  ([.text "Free RAM: ".toList, .number, .text " Byte(s)\n".toList], [.number info.freeram.toNat])

/-- `"Page size: %u Byte(s)\n"`. -/
def memUnitLine (info : Info) : Line :=
  ([.text "Page size: ".toList, .number, .text " Byte(s)\n".toList],
    [.number info.memUnit.toNat])

/-- A headline. -/
def headline (s : String) : Line := ([.text s.toList], [])

/-- A line with a string of `struct utsname`. -/
def utsnameLine (label : String) (field : List Char) : Line :=
  ([.text label.toList, .string, .text ['\n']], [.string field])

/-- The block of the `struct sysinfo`. -/
def infoLines (info : Info) : List Line :=
  [uptimeLine info, procsLine info, totalramLine info, freeramLine info, memUnitLine info]

/-- Several calls of `printf`. -/
def printf : List Line → Option (List Char)
  | [] => some []
  | l :: ls => do
    let text ← sprintf l.1 l.2
    let rest ← printf ls
    return text ++ rest

/-! ## The program -/

/-- What the kernel answers, if it does. -/
structure Kernel where
  sysinfo : Option Info
  uname : Option Utsname
  gethostname : Option Hostname

/-- What is printed when nothing fails. -/
def report (info : Info) (uName : Utsname) (name : Hostname) : List Line :=
  [headline "---- gethostname Information ----\n\n",
    hostnameLine name,
    headline "---- sysinfo Information ----\n"]
  ++ infoLines info ++
  [headline "---- utsname Information ----\n",
    utsnameLine "system name: " uName.sysname,
    utsnameLine "node name: " uName.nodename,
    utsnameLine "release: " uName.release,
    utsnameLine "version: " uName.version,
    utsnameLine "machine: " uName.machine]

/-- `main`: the exit code, and what is printed to `stdout`. -/
def main (k : Kernel) : Option (Int × List Char) :=
  match k.sysinfo with
  | none => some (1, [])
  | some info =>
      match k.uname with
      | none => some (1, [])
      | some uName =>
          match k.gethostname with
          | none => some (2, [])
          | some name => (printf (report info uName name)).map fun text => (0, text)

/-! ## Reading it back -/

/-- The format of several lines. -/
def formats (ls : List Line) : List Piece := ls.flatMap Prod.fst

/-- The arguments of several lines. -/
def arguments (ls : List Line) : List Arg := ls.flatMap Prod.snd

/-- The fields of a `struct sysinfo`, from the numbers that have been printed. -/
def infoOfArgs : List Arg → Option Info
  | [.number uptime, .number procs, .number totalram, .number freeram, .number memUnit] =>
      some ⟨.ofInt uptime, .ofNat totalram.toNat, .ofNat freeram.toNat, .ofNat procs.toNat,
        .ofNat memUnit.toNat⟩
  | _ => none

theorem infoOfArgs_infoLines (info : Info) :
    infoOfArgs (arguments (infoLines info)) = some info := by
  show some (Info.mk _ _ _ _ _) = some info
  simp only [Int64.ofInt_toInt, Int.toNat_natCast, UInt64.ofNat_toNat, UInt16.ofNat_toNat,
    UInt32.ofNat_toNat]

/-- What several calls print is what one call with all of their formats would. -/
theorem sprintf_of_printf {ls : List Line} {t : List Char} (h : printf ls = some t) :
    sprintf (formats ls) (arguments ls) = some t := by
  induction ls generalizing t with
  | nil => exact h
  | cons l ls ih =>
      obtain ⟨s, hs, hrest⟩ := Option.bind_eq_some_iff.mp h
      obtain ⟨u, hu, hsu⟩ := Option.bind_eq_some_iff.mp hrest
      cases hsu
      exact sprintf_append hs (ih hu)

end CAdvanced.Sysinfo
