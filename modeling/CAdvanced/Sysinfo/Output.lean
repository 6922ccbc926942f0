import CAdvanced.Sysinfo.Model

/-!
# Sysinfo — Output

The output of `sysinfo.c` can be read back: as long as no string of the kernel has a newline
in it, every answer that was printed is found in what was printed. When an answer is missing
nothing is printed at all, and the exit code says so.
-/

namespace CAdvanced.Sysinfo

open CText

/-- The format of the output, which no answer has a part in. -/
def reportFormat : List Piece :=
  formats (report ⟨0, 0, 0, 0, 0⟩ ⟨[], [], [], [], []⟩ ⟨[], List.not_mem_nil, by decide⟩)

/-- Reads the output. -/
def readReport (text : List Char) : Option (List Char × Info × Utsname) :=
  match sscanf reportFormat text with
  | some (.string name :: args) =>
      match args.drop 5 with
      | [.string sysname, .string nodename, .string release, .string version,
          .string machine] =>
          (infoOfArgs (args.take 5)).map fun info =>
            (name, info, ⟨sysname, nodename, release, version, machine⟩)
      | _ => none
  | _ => none

/-- The answers of the kernel, if all of them are there. -/
def Kernel.answers (k : Kernel) : Option (List Char × Info × Utsname) := do
  let info ← k.sysinfo
  let uName ← k.uname
  let name ← k.gethostname
  return (name.text, info, uName)

/-- No string of the kernel has a newline in it. -/
structure Kernel.OneLine (k : Kernel) : Prop where
  gethostname : ∀ name, k.gethostname = some name → '\n' ∉ name.text
  uname : ∀ uName, k.uname = some uName → '\n' ∉ uName.sysname ∧ '\n' ∉ uName.nodename
    ∧ '\n' ∉ uName.release ∧ '\n' ∉ uName.version ∧ '\n' ∉ uName.machine

theorem formats_report (info : Info) (uName : Utsname) (name : Hostname) :
    formats (report info uName name) = reportFormat := rfl

theorem delimited_reportFormat : delimited reportFormat = true := by decide +kernel

/-- Every line can be printed. -/
theorem printf_report (info : Info) (uName : Utsname) (name : Hostname) :
    ∃ text, printf (report info uName name) = some text := ⟨_, rfl⟩

theorem readReport_of_printf {info : Info} {uName : Utsname} {name : Hostname}
    {text : List Char} (hname : '\n' ∉ name.text)
    (huname : '\n' ∉ uName.sysname ∧ '\n' ∉ uName.nodename ∧ '\n' ∉ uName.release
      ∧ '\n' ∉ uName.version ∧ '\n' ∉ uName.machine)
    (h : printf (report info uName name) = some text) :
    readReport text = some (name.text, info, uName) := by
  have hargs : ∀ s, .string s ∈ arguments (report info uName name) → '\n' ∉ s := by
    obtain ⟨hsysname, hnodename, hrelease, hversion, hmachine⟩ := huname
    intro s hs
    simp only [arguments, report, infoLines, headline, hostnameLine, uptimeLine, procsLine,
      totalramLine, freeramLine, memUnitLine, utsnameLine, List.cons_append, List.nil_append,
      List.flatMap_cons, List.flatMap_nil, List.mem_cons, Arg.string.injEq, reduceCtorEq,
      false_or, List.not_mem_nil, or_false] at hs
    rcases hs with rfl | rfl | rfl | rfl | rfl | rfl <;> assumption
  have hback := sscanf_sprintf (formats_report info uName name ▸ delimited_reportFormat) hargs
    (sprintf_of_printf h)
  rw [formats_report] at hback
  unfold readReport
  rw [hback]
  show (infoOfArgs (arguments (infoLines info))).map _ = _
  rw [infoOfArgs_infoLines]
  rfl

/-- **The output is read back**: what is printed shows every answer of the kernel, or is
empty when one of them is missing; the exit code is 0 just when none is. -/
theorem sysinfo_read_back {k : Kernel} (hk : k.OneLine) :
    ∃ code text, main k = some (code, text) ∧ readReport text = k.answers
      ∧ (k.answers = none → text = []) ∧ (code = 0 ↔ k.answers.isSome = true) := by
  have hempty : readReport [] = none := by decide +kernel
  have hfailed : ∀ {code : Int}, 0 < code →
      (code = 0 ↔ (none : Option (List Char × Info × Utsname)).isSome = true) :=
    fun hcode => iff_of_false hcode.ne' Bool.false_ne_true
  obtain ⟨sysinfo, uname, gethostname⟩ := k
  cases sysinfo with
  | none => exact ⟨1, [], rfl, hempty, fun _ => rfl, hfailed Int.one_pos⟩
  | some info =>
      cases uname with
      | none => exact ⟨1, [], rfl, hempty, fun _ => rfl, hfailed Int.one_pos⟩
      | some uName =>
          cases gethostname with
          | none => exact ⟨2, [], rfl, hempty, fun _ => rfl, hfailed (by decide)⟩
          | some name =>
              obtain ⟨text, htext⟩ := printf_report info uName name
              refine ⟨0, text, ?_, ?_, nofun, iff_of_true rfl rfl⟩
              · show (printf (report info uName name)).map _ = _
                rw [htext]
                rfl
              · exact readReport_of_printf (hk.gethostname name rfl) (hk.uname uName rfl) htext

/-- A machine that has been up for a minute. -/
theorem sysinfo_read_back_minute :
    ∃ text, main ⟨some ⟨60, 1024, 512, 7, 1⟩, some ⟨['L'], ['a'], ['5'], ['#'], ['x']⟩,
        some ⟨['a'], by decide, by decide⟩⟩ = some (0, text)
      ∧ readReport text
        = some (['a'], ⟨60, 1024, 512, 7, 1⟩, ⟨['L'], ['a'], ['5'], ['#'], ['x']⟩) := by
  obtain ⟨code, text, hmain, hread, -, hcode⟩ := sysinfo_read_back
    (k := ⟨some ⟨60, 1024, 512, 7, 1⟩, some ⟨['L'], ['a'], ['5'], ['#'], ['x']⟩,
      some ⟨['a'], by decide, by decide⟩⟩)
    ⟨by rintro _ ⟨⟩; decide, by rintro _ ⟨⟩; decide⟩
  obtain rfl := hcode.mpr rfl
  exact ⟨text, hmain, hread⟩

end CAdvanced.Sysinfo
