import CAdvanced.EasyServer.Model

/-!
# EasyServer — Responses

Every client of the easy server is sent the answers that the kernel gave for it, as far as
`write` goes, and nothing when an answer is missing. The answers can be read back from the whole
text (`readInfo`), whatever stands in the host name: the buffer is large enough for all six lines,
and what an earlier client was sent stays behind `*size`. The name is what the last five lines
leave over.
-/

namespace CAdvanced.EasyServer

open CText Sysinfo

variable {tx : Tx}

/-! ## The buffer -/

/-- The text that has been written so far. -/
structure Holds (tx : Tx) (text : List Char) : Prop where
  size : tx.size = text.length
  take : tx.buffer.bytes.take tx.size = text

theorem holds_empty (buffer : Buffer Char) : Holds ⟨buffer, 0⟩ [] := ⟨rfl, rfl⟩

/-- **A line that fits** is written behind the others. -/
theorem Holds.append {text t : List Char} (h : Holds tx text) {l : Line}
    (hl : sprintf l.1 l.2 = some t) (hfits : text.length + t.length < bufsize) :
    ∃ tx', tx.append l = some tx' ∧ Holds tx' (text ++ t) := by
  have hsize := h.size
  have hlt : tx.size + t.length < bufsize := by omega
  have hstore : tx.buffer.store tx.size t = some ⟨_, length_store tx.buffer.length_eq hlt⟩ :=
    dif_pos hlt
  refine ⟨⟨⟨_, length_store tx.buffer.length_eq hlt⟩, tx.size + t.length⟩, ?_, ?_, ?_⟩
  · unfold Tx.append
    rw [hl, Option.bind_eq_bind, Option.bind_some, hstore]
    rfl
  · rw [List.length_append, ← hsize]
  · show List.take (tx.size + t.length) (tx.buffer.bytes.take tx.size ++ (t ++ _)) = text ++ t
    rw [h.take, hsize, List.take_length_add_append, List.take_left]

theorem Holds.append_all {ls : List Line} {text t : List Char} (h : Holds tx text)
    (hls : printf ls = some t) (hfits : text.length + t.length < bufsize) :
    ∃ tx', ls.foldlM (fun tx l => Tx.append l tx) tx = some tx' ∧ Holds tx' (text ++ t) := by
  induction ls generalizing tx text t with
  | nil =>
      cases hls
      rw [List.append_nil]
      exact ⟨tx, rfl, h⟩
  | cons l ls ih =>
      obtain ⟨s, hs, hrest⟩ := Option.bind_eq_some_iff.mp hls
      obtain ⟨u, hu, hsu⟩ := Option.bind_eq_some_iff.mp hrest
      cases hsu
      rw [List.length_append] at hfits
      obtain ⟨tx', happend, h'⟩ := h.append hs (by omega)
      obtain ⟨tx'', hall, h''⟩ := ih h' hu (by rw [List.length_append]; omega)
      rw [List.append_assoc] at h''
      refine ⟨tx'', ?_, h''⟩
      rw [List.foldlM_cons, happend]
      exact hall

/-! ## The lines fit -/

/-- A number of 64 bits has at most 20 characters. -/
theorem length_decimal_long {n : Int} (hlow : -2 ^ 63 ≤ n) (hhigh : n < 2 ^ 64) :
    (decimal n).length ≤ 20 := by
  cases n with
  | ofNat n =>
      refine (length_decimal_le (by decide)).mpr (Nat.lt_trans (m := 2 ^ 64) ?_ (by decide))
      exact Int.ofNat_lt.mp hhigh
  | negSucc n =>
      have hdigits : (Nat.toDigits 10 (n + 1)).length ≤ 19 := by
        refine (length_decimal_le (n := n + 1) (by decide)).mpr ?_
        omega
      exact Nat.succ_le_succ hdigits

/-- The number of a line is the only part of it whose length is not known. -/
theorem length_numberLine (a b : List Char) {n : Int} (hlow : -2 ^ 63 ≤ n) (hhigh : n < 2 ^ 64) :
    ∃ t, sprintf [.text a, .number, .text b] [.number n] = some t
      ∧ t.length ≤ a.length + 20 + b.length := by
  have hn := length_decimal_long hlow hhigh
  refine ⟨_, rfl, ?_⟩
  simp only [List.length_append, List.length_nil]
  omega

theorem length_printf {ls : List Line} {k : Nat}
    (h : ∀ l ∈ ls, ∃ t, sprintf l.1 l.2 = some t ∧ t.length ≤ k) :
    ∃ t, printf ls = some t ∧ t.length ≤ ls.length * k := by
  induction ls with
  | nil => exact ⟨[], rfl, Nat.zero_le _⟩
  | cons l ls ih =>
      obtain ⟨hl, hls⟩ := List.forall_mem_cons.mp h
      obtain ⟨s, hs, hlength⟩ := hl
      obtain ⟨t, ht, hrest⟩ := ih hls
      refine ⟨s ++ t, ?_, ?_⟩
      · rw [printf, hs, Option.bind_eq_bind, Option.bind_some, ht]
        rfl
      · rw [List.length_append, List.length_cons, Nat.succ_mul]
        omega

/-- The lines of a `struct sysinfo` have 60 characters at most. -/
theorem length_infoLines (info : Info) :
    ∃ t, printf (infoLines info) = some t ∧ t.length ≤ 300 := by
  have huptime : -2 ^ 63 ≤ info.uptime.toInt ∧ info.uptime.toInt < 2 ^ 64 := by
    have hhigh := info.uptime.toInt_lt
    exact ⟨info.uptime.le_toInt, by omega⟩
  have hprocs := info.procs.toNat_lt
  have htotalram := info.totalram.toNat_lt
  have hfreeram := info.freeram.toNat_lt
  have hmemUnit := info.memUnit.toNat_lt
  have hline : ∀ l ∈ infoLines info, ∃ t, sprintf l.1 l.2 = some t ∧ t.length ≤ 60 := by
    have hshort : ∀ (a b : List Char) {n : Int}, -2 ^ 63 ≤ n → n < 2 ^ 64 →
        a.length + b.length ≤ 40 →
        ∃ t, sprintf [.text a, .number, .text b] [.number n] = some t ∧ t.length ≤ 60 := by
      intro a b n hlow hhigh hab
      obtain ⟨t, ht, hle⟩ := length_numberLine a b hlow hhigh
      exact ⟨t, ht, by omega⟩
    unfold infoLines
    simp only [List.forall_mem_cons]
    refine ⟨?_, ?_, ?_, ?_, ?_, fun _ h => absurd h List.not_mem_nil⟩
    · exact hshort _ _ huptime.1 huptime.2 (by decide)
    · exact hshort _ _ (by omega) (by omega) (by decide)
    · exact hshort _ _ (by omega) (by omega) (by decide)
    · exact hshort _ _ (by omega) (by omega) (by decide)
    · exact hshort _ _ (by omega) (by omega) (by decide)
  obtain ⟨t, ht, hlength⟩ := length_printf hline
  have hcount : (infoLines info).length = 5 := rfl
  rw [hcount] at hlength
  exact ⟨t, ht, hlength⟩

/-- What a client is sent when nothing fails. -/
theorem printf_lines (info : Info) (name : Hostname) :
    ∃ tail, printf (infoLines info) = some tail
      ∧ printf (hostnameLine name :: infoLines info)
        = some ("Hostname: ".toList ++ name.text ++ '\n' :: tail)
      ∧ ("Hostname: ".toList ++ name.text ++ '\n' :: tail).length < bufsize := by
  have hname := name.length_lt
  obtain ⟨tail, htail, hlength⟩ := length_infoLines info
  refine ⟨tail, htail, ?_, ?_⟩
  · rw [printf, htail]
    simp [hostnameLine, sprintf]
  · have hlabel : "Hostname: ".toList.length = 10 := rfl
    rw [List.length_append, List.length_append, List.length_cons, hlabel]
    unfold bufsize
    omega

/-! ## `print_info` -/

/-- The answers of the kernel, if both are there. -/
def Answers.report (a : Answers) : Option (List Char × Info) := do
  let info ← a.sysinfo
  let name ← a.gethostname
  return (name.text, info)

/-- The text for a client: the six lines, or nothing. -/
def Answers.text (a : Answers) : List Char :=
  match a.sysinfo, a.gethostname with
  | some info, some name => (printf (hostnameLine name :: infoLines info)).getD []
  | _, _ => []

theorem Answers.text_of_missing {a : Answers} (h : a.report = none) : a.text = [] := by
  obtain ⟨sysinfo, gethostname⟩ := a
  cases sysinfo with
  | none => rfl
  | some info =>
      cases gethostname with
      | none => rfl
      | some name => cases h

/-- The format of the last five lines, which no answer has a part in. -/
def infoFormat : List Piece := formats (infoLines ⟨0, 0, 0, 0, 0⟩)

/-- Reads what a client has been sent. -/
def readInfo (text : List Char) : Option (List Char × Info) :=
  let tail := dropLines (text.count '\n' - 5) text
  let head := text.take (text.length - tail.length)
  ((sscanf infoFormat tail).bind infoOfArgs).map fun info => ((head.drop 10).dropLast, info)

theorem sscanf_infoLines {info : Info} {tail : List Char}
    (h : printf (infoLines info) = some tail) :
    (sscanf infoFormat tail).bind infoOfArgs = some info ∧ tail.count '\n' = 5 := by
  have hargs : ∀ s, .string s ∈ arguments (infoLines info) → '\n' ∉ s := by
    intro s hs
    simp [arguments, infoLines, uptimeLine, procsLine, totalramLine, freeramLine,
      memUnitLine] at hs
  have hformat : formats (infoLines info) = infoFormat := rfl
  have hdelimited : delimited infoFormat = true := by decide +kernel
  have hsprintf := sprintf_of_printf h
  rw [hformat] at hsprintf
  constructor
  · rw [sscanf_sprintf hdelimited hargs hsprintf, Option.bind_some, infoOfArgs_infoLines]
  · rw [count_sprintf hargs hsprintf]
    decide +kernel

/-- **The six lines are read back**, and a host name of several lines is no exception. -/
theorem readInfo_lines {info : Info} {tail : List Char} (h : printf (infoLines info) = some tail)
    (name : Hostname) :
    readInfo ("Hostname: ".toList ++ name.text ++ '\n' :: tail) = some (name.text, info) := by
  obtain ⟨hread, hcount⟩ := sscanf_infoLines h
  generalize hhead : "Hostname: ".toList ++ name.text = head
  have htail : dropLines ((head ++ '\n' :: tail).count '\n' - 5) (head ++ '\n' :: tail)
      = tail := by
    have hlines : head.count '\n' + (5 + 1) - 5 = head.count '\n' + 1 := by omega
    rw [List.count_append, List.count_cons_self, hcount, hlines, dropLines_append]
  have htake : (head ++ '\n' :: tail).take ((head ++ '\n' :: tail).length - tail.length)
      = head ++ ['\n'] := by
    rw [List.append_cons, List.length_append, Nat.add_sub_cancel, List.take_left]
  unfold readInfo
  dsimp only
  rw [htail, hread, htake, Option.map_some, ← hhead]
  show some (List.dropLast (name.text ++ ['\n']), info) = _
  rw [List.dropLast_concat]

theorem printInfo_eq (info : Info) (name : Hostname) (tx : Tx) :
    printInfo ⟨some info, some name⟩ tx
      = ((hostnameLine name :: infoLines info).foldlM (fun tx l => Tx.append l tx)
          { tx with size := 0 }).map fun tx => (0, tx) := by
  simp only [printInfo, infoLines, List.foldlM_cons, List.foldlM_nil, Option.pure_def,
    Option.bind_eq_bind, Option.map_bind, Function.comp_def, Option.map_some]

/-- **From the text** for a client the answers can be read back. -/
theorem readInfo_text (a : Answers) : readInfo a.text = a.report := by
  have hempty : readInfo [] = none := by decide +kernel
  obtain ⟨sysinfo, gethostname⟩ := a
  cases sysinfo with
  | none => exact hempty
  | some info =>
      cases gethostname with
      | none => exact hempty
      | some name =>
          obtain ⟨tail, htail, hlines, -⟩ := printf_lines info name
          show readInfo ((printf (hostnameLine name :: infoLines info)).getD []) = _
          rw [hlines, Option.getD_some, readInfo_lines htail]
          rfl

/-- **What `print_info` leaves** in the buffer is the text, whatever was there before. -/
theorem printInfo_text (a : Answers) (tx : Tx) :
    ∃ code tx', printInfo a tx = some (code, tx')
      ∧ tx'.buffer.bytes.take tx'.size = a.text := by
  obtain ⟨sysinfo, gethostname⟩ := a
  cases sysinfo with
  | none => exact ⟨1, ⟨tx.buffer, 0⟩, rfl, rfl⟩
  | some info =>
      cases gethostname with
      | none => exact ⟨2, ⟨tx.buffer, 0⟩, rfl, rfl⟩
      | some name =>
          obtain ⟨tail, htail, hlines, hfits⟩ := printf_lines info name
          obtain ⟨tx', hall, hholds⟩ := (holds_empty tx.buffer).append_all hlines
            (by rwa [List.length_nil, Nat.zero_add])
          refine ⟨0, tx', ?_, ?_⟩
          · rw [printInfo_eq, hall]
            rfl
          · show _ = (printf (hostnameLine name :: infoLines info)).getD []
            rw [hholds.take, List.nil_append, hlines, Option.getD_some]

/-! ## The loop -/

/-- The round has a client. -/
def Round.accepted (r : Round) : Bool := 0 ≤ r.listen && 0 ≤ r.accept

/-- The socket and the text of a `write`. -/
def Event.write : Event → Option (Int × List Char)
  | .sent socket text => some (socket, text)
  | _ => none

/-- The socket of a `close`. -/
def Event.close : Event → Option Int
  | .closed socket => some socket
  | _ => none

/-- The round comes to its end, with these bytes in `rx_buffer`: it has a client, `printf` finds a
NUL, and `write` no `SIGPIPE`. -/
def Round.completed (beyond : List UInt8) (rx : Buffer UInt8) (r : Round) : Bool :=
  r.accepted && (cstr (rx.bytes ++ beyond)).isSome && r.write.isSome

/-- The rounds that come to their end, one after the other. -/
def completed (beyond : List UInt8) : List Round → Buffer UInt8 → List Round
  | [], _ => []
  | r :: rs, rx =>
      if r.completed beyond (rx.receive r.recv) then
        r :: completed beyond rs (rx.receive r.recv)
      else []

/-- What the client of a round is sent. -/
def Round.sent (r : Round) : Int × List Char := (r.accept, r.answers.text.take (r.write.getD 0))

theorem run_cons_failed {beyond : List UInt8} {r : Round} {rs : List Round} {s : State}
    (h : r.accepted = false) : run beyond (r :: rs) s = some [] := by
  rw [run]
  split
  · rfl
  · next hlisten =>
    have haccept : r.accept < 0 := by
      simpa [Round.accepted, Int.not_lt.mp hlisten] using h
    rw [if_pos haccept]

theorem run_cons_accepted {beyond : List UInt8} {r : Round} {rs : List Round} {s : State}
    (h : r.accepted = true) :
    run beyond (r :: rs) s = (serve beyond r.accept r s).bind fun x =>
      x.2.elim (some x.1) fun s' => (run beyond rs s').map (x.1 ++ ·) := by
  obtain ⟨hlisten, haccept⟩ := Bool.and_eq_true_iff.mp h
  have hlisten : ¬ r.listen < 0 := Int.not_lt.mpr (of_decide_eq_true hlisten)
  have haccept : ¬ r.accept < 0 := Int.not_lt.mpr (of_decide_eq_true haccept)
  rw [run, if_neg hlisten, if_neg haccept]
  cases serve beyond r.accept r s with
  | none => rfl
  | some x =>
      obtain ⟨events, s'⟩ := x
      cases s' with
      | none => rfl
      | some s' =>
          show (run beyond rs s').bind _ = (run beyond rs s').map _
          cases run beyond rs s' <;> rfl

/-- **One client**, in a round that comes to its end, is sent its text as far as `write` goes, and
its socket is closed. -/
theorem serve_completed {beyond : List UInt8} {r : Round} {s : State}
    (h : r.completed beyond (s.rx.receive r.recv) = true) :
    ∃ events tx, serve beyond r.accept r s = some (events, some ⟨s.rx.receive r.recv, tx⟩)
      ∧ events.filterMap Event.write = [r.sent] ∧ events.filterMap Event.close = [r.accept] := by
  obtain ⟨h, hwrite⟩ := Bool.and_eq_true_iff.mp h
  obtain ⟨-, hcstr⟩ := Bool.and_eq_true_iff.mp h
  obtain ⟨received, hcstr⟩ := Option.isSome_iff_exists.mp hcstr
  obtain ⟨n, hwrite⟩ := Option.isSome_iff_exists.mp hwrite
  obtain ⟨code, tx, hprint, htext⟩ := printInfo_text r.answers s.tx
  refine ⟨[.printed received, .sent r.accept ((tx.buffer.bytes.take tx.size).take n),
    .closed r.accept], tx, ?_, ?_, ?_⟩
  · simp only [serve, hcstr, hprint, hwrite]
    rfl
  · rw [Round.sent, hwrite, Option.getD_some, ← htext]
    rfl
  · rfl

/-- A round that does not is the end of the process, and sends nothing. -/
theorem serve_not_completed {beyond : List UInt8} {r : Round} {s : State}
    (haccepted : r.accepted = true) (h : r.completed beyond (s.rx.receive r.recv) = false) :
    ∃ events, serve beyond r.accept r s = some (events, none)
      ∧ events.filterMap Event.write = [] ∧ events.filterMap Event.close = [] := by
  cases hcstr : cstr ((s.rx.receive r.recv).bytes ++ beyond) with
  | none =>
      refine ⟨[], ?_, rfl, rfl⟩
      simp only [serve, hcstr]
  | some received =>
      have hwrite : r.write = none := by
        rw [Round.completed, haccepted, hcstr] at h
        exact Option.isNone_iff_eq_none.mp (by simpa using h)
      obtain ⟨code, tx, hprint, -⟩ := printInfo_text r.answers s.tx
      refine ⟨[.printed received], ?_, rfl, rfl⟩
      simp only [serve, hcstr, hprint, hwrite]
      rfl

theorem run_sends (beyond : List UInt8) (rs : List Round) (s : State) :
    ∃ events, run beyond rs s = some events
      ∧ events.filterMap Event.write = (completed beyond rs s.rx).map Round.sent
      ∧ events.filterMap Event.close = (completed beyond rs s.rx).map Round.accept := by
  induction rs generalizing s with
  | nil => exact ⟨[], rfl, rfl, rfl⟩
  | cons r rs ih =>
      by_cases hr : r.completed beyond (s.rx.receive r.recv) = true
      · have haccepted : r.accepted = true :=
          (Bool.and_eq_true_iff.mp (Bool.and_eq_true_iff.mp hr).1).1
        obtain ⟨served, tx, hserve, hwrite, hclose⟩ := serve_completed hr
        obtain ⟨events, hrun, hwrites, hcloses⟩ := ih ⟨s.rx.receive r.recv, tx⟩
        refine ⟨served ++ events, ?_, ?_, ?_⟩
        · rw [run_cons_accepted haccepted, hserve, Option.bind_some, Option.elim_some, hrun]
          rfl
        · rw [completed, if_pos hr, List.map_cons, ← hwrites, List.filterMap_append, hwrite]
          rfl
        · rw [completed, if_pos hr, List.map_cons, ← hcloses, List.filterMap_append, hclose]
          rfl
      · rw [completed, if_neg hr]
        cases haccepted : r.accepted with
        | false => exact ⟨[], run_cons_failed haccepted, rfl, rfl⟩
        | true =>
            obtain ⟨events, hserve, hwrite, hclose⟩ :=
              serve_not_completed haccepted (Bool.eq_false_of_not_eq_true hr)
            refine ⟨events, ?_, hwrite, hclose⟩
            rw [run_cons_accepted haccepted, hserve]
            rfl

/-- **The clients of the easy server**: whatever the buffers hold at first and whatever is
received, `print_info` stays within its buffer, and the clients of the rounds that come to their
end are served one after the other: each is sent its text, as far as `write` goes, and its socket
is closed. From the text just the answers that the kernel gave for the client can be read back,
and it is empty when one was missing. -/
theorem easy_server_read_back (beyond : List UInt8) (rs : List Round) (s : State) :
    (∃ events, run beyond rs s = some events
      ∧ events.filterMap Event.write = (completed beyond rs s.rx).map Round.sent
      ∧ events.filterMap Event.close = (completed beyond rs s.rx).map Round.accept)
    ∧ ∀ r ∈ rs, readInfo r.answers.text = r.answers.report
      ∧ (r.answers.report = none → r.answers.text = []) :=
  ⟨run_sends beyond rs s, fun r _ => ⟨readInfo_text r.answers, Answers.text_of_missing⟩⟩

end CAdvanced.EasyServer
