import CAdvanced.CText.Number

/-!
# CText — formats

`sprintf`: a format is text with places for arguments in it. `sscanf` is the way back, for a
string that ends where its line does, and a number that ends with its last digit. A format
that puts the end of a line behind every string and no digit behind a number
(`delimited`) loses nothing: `sscanf_sprintf`.
-/

namespace CText

/-- A piece of a format: text, `%s`, or one of `%d`, `%u`, `%ld` and `%lu`. -/
inductive Piece where
  | text (s : List Char)
  | string
  | number
  deriving DecidableEq, Repr

/-- An argument. -/
inductive Arg where
  | string (s : List Char)
  | number (n : Int)
  deriving DecidableEq, Repr

/-- `sprintf`; nothing can be said about arguments that do not fit the format. -/
def sprintf : List Piece → List Arg → Option (List Char)
  | [], [] => some []
  | .text s :: f, args => (sprintf f args).map (s ++ ·)
  | .string :: f, .string s :: args => (sprintf f args).map (s ++ ·)
  | .number :: f, .number n :: args => (sprintf f args).map (decimal n ++ ·)
  | _, _ => none

/-- Reads a number, and what is left. -/
def readNumber (s : List Char) : Int × List Char :=
  let r := takeSign s
  let n : Int := Nat.ofDigitChars 10 (r.2.takeWhile Char.isDigit) 0
  (if r.1 then -n else n, r.2.dropWhile Char.isDigit)

/-- Reads all of a text as one in this format. -/
def sscanf : List Piece → List Char → Option (List Arg)
  | [], s => if s = [] then some [] else none
  | .text t :: f, s => if t <+: s then sscanf f (s.drop t.length) else none
  | .string :: f, s =>
      (sscanf f (s.dropWhile (· ≠ '\n'))).map (.string (s.takeWhile (· ≠ '\n')) :: ·)
  | .number :: f, s => (sscanf f (readNumber s).2).map (.number (readNumber s).1 :: ·)

/-- The format begins with the end of a line. -/
def endsString : List Piece → Bool
  | .text ('\n' :: _) :: _ => true
  | _ => false

/-- The format begins with something that is no digit. -/
def endsNumber : List Piece → Bool
  | .text (c :: _) :: _ => !c.isDigit
  | _ => false

/-- Behind every argument there is text by which its end is seen. -/
def delimited : List Piece → Bool
  | [] => true
  | .text _ :: f => delimited f
  | .string :: f => endsString f && delimited f
  | .number :: f => endsNumber f && delimited f

/-- How many lines a format ends. -/
def newlines : List Piece → Nat
  | [] => 0
  | .text s :: f => s.count '\n' + newlines f
  | _ :: f => newlines f

theorem endsString_eq {f : List Piece} (h : endsString f = true) :
    ∃ t g, f = .text ('\n' :: t) :: g := by
  unfold endsString at h
  split at h
  · exact ⟨_, _, rfl⟩
  · cases h

theorem endsNumber_eq {f : List Piece} (h : endsNumber f = true) :
    ∃ c t g, f = .text (c :: t) :: g ∧ c.isDigit = false := by
  unfold endsNumber at h
  split at h
  · exact ⟨_, _, _, rfl, by simpa using h⟩
  · cases h

/-! ## A number and what stands behind it -/

theorem takeSign_digits_append {n : Nat} {c : Char} {rest : List Char} :
    takeSign (Nat.toDigits 10 n ++ c :: rest) = (false, Nat.toDigits 10 n ++ c :: rest) := by
  cases hdigits : Nat.toDigits 10 n with
  | nil => exact absurd hdigits Nat.toDigits_ne_nil
  | cons d ds =>
      have hd : d ∈ Nat.toDigits 10 n := by
        rw [hdigits]
        exact List.mem_cons_self
      obtain ⟨-, hminus, hplus, -⟩ := digit_cases (isDigit_toDigits hd)
      rw [List.cons_append]
      unfold takeSign
      split
      · rename_i heq
        exact absurd (List.cons.inj heq).1 hminus
      · rename_i heq
        exact absurd (List.cons.inj heq).1 hplus
      · rfl

theorem takeWhile_digits_append {n : Nat} {c : Char} (hc : c.isDigit = false)
    (rest : List Char) :
    (Nat.toDigits 10 n ++ c :: rest).takeWhile Char.isDigit = Nat.toDigits 10 n
      ∧ (Nat.toDigits 10 n ++ c :: rest).dropWhile Char.isDigit = c :: rest := by
  have hdigits : ∀ d ∈ Nat.toDigits 10 n, d.isDigit = true := fun _ => isDigit_toDigits
  have hstop : ¬ c.isDigit = true := by
    rw [hc]
    exact Bool.false_ne_true
  constructor
  · rw [List.takeWhile_append_of_pos hdigits, List.takeWhile_cons_of_neg hstop, List.append_nil]
  · rw [List.dropWhile_append_of_pos hdigits, List.dropWhile_cons_of_neg hstop]

/-- **A number is read back** in front of anything but a digit. -/
theorem readNumber_decimal (n : Int) {c : Char} (hc : c.isDigit = false) (rest : List Char) :
    readNumber (decimal n ++ c :: rest) = (n, c :: rest) := by
  unfold readNumber
  cases n with
  | ofNat n =>
      obtain ⟨htake, hdrop⟩ := takeWhile_digits_append (n := n) hc rest
      rw [decimal, takeSign_digits_append]
      dsimp only
      rw [htake, hdrop, Nat.ofDigitChars_ten_toDigits]
      rfl
  | negSucc n =>
      obtain ⟨htake, hdrop⟩ := takeWhile_digits_append (n := n + 1) hc rest
      rw [decimal, List.cons_append, takeSign]
      dsimp only
      rw [htake, hdrop, Nat.ofDigitChars_ten_toDigits]
      rfl

/-- A string is read back in front of the end of its line. -/
theorem takeWhile_line {s : List Char} (hs : '\n' ∉ s) (rest : List Char) :
    (s ++ '\n' :: rest).takeWhile (· ≠ '\n') = s
      ∧ (s ++ '\n' :: rest).dropWhile (· ≠ '\n') = '\n' :: rest := by
  have hline : ∀ c ∈ s, decide (c ≠ '\n') = true := fun c hc =>
    decide_eq_true fun h => hs (h ▸ hc)
  have hstop : ¬ decide ('\n' ≠ '\n') = true := by decide
  constructor
  · rw [List.takeWhile_append_of_pos hline, List.takeWhile_cons_of_neg (p := (· ≠ '\n')) hstop,
      List.append_nil]
  · rw [List.dropWhile_append_of_pos hline, List.dropWhile_cons_of_neg (p := (· ≠ '\n')) hstop]

/-! ## The way there and back -/

/-- A format that begins with text makes a text that does. -/
theorem sprintf_text {s : List Char} {f : List Piece} {args : List Arg} {t : List Char}
    (h : sprintf (.text s :: f) args = some t) : ∃ u, sprintf f args = some u ∧ t = s ++ u := by
  obtain ⟨u, hu, rfl⟩ := Option.map_eq_some_iff.mp h
  exact ⟨u, hu, rfl⟩

/-- **Nothing is lost**: what has been written in a delimited format is read back, if no
string has more than one line. -/
theorem sscanf_sprintf {f : List Piece} {args : List Arg} {t : List Char}
    (hf : delimited f = true)
    (hargs : ∀ s, .string s ∈ args → '\n' ∉ s) (h : sprintf f args = some t) :
    sscanf f t = some args := by
  fun_induction sprintf f args generalizing t with
  | case1 =>
      cases h
      rfl
  | case2 s f args ih =>
      obtain ⟨u, hu, rfl⟩ := Option.map_eq_some_iff.mp h
      rw [sscanf, if_pos (List.prefix_append s u), List.drop_left]
      exact ih hf hargs hu
  | case3 f s args ih =>
      obtain ⟨u, hu, rfl⟩ := Option.map_eq_some_iff.mp h
      obtain ⟨hends, hf⟩ := Bool.and_eq_true_iff.mp hf
      obtain ⟨r, g, rfl⟩ := endsString_eq hends
      obtain ⟨v, -, rfl⟩ := sprintf_text hu
      obtain ⟨htake, hdrop⟩ := takeWhile_line (hargs s List.mem_cons_self) (r ++ v)
      have hback := ih hf (fun s' hs' => hargs s' (List.mem_cons_of_mem _ hs')) hu
      rw [List.cons_append] at hback
      rw [sscanf, List.cons_append, htake, hdrop, hback, Option.map_some]
  | case4 f n args ih =>
      obtain ⟨u, hu, rfl⟩ := Option.map_eq_some_iff.mp h
      obtain ⟨hends, hf⟩ := Bool.and_eq_true_iff.mp hf
      obtain ⟨c, r, g, rfl, hc⟩ := endsNumber_eq hends
      obtain ⟨v, -, rfl⟩ := sprintf_text hu
      have hback := ih hf (fun s' hs' => hargs s' (List.mem_cons_of_mem _ hs')) hu
      rw [List.cons_append] at hback
      rw [sscanf, List.cons_append, readNumber_decimal n hc, hback, Option.map_some]
  | case5 => cases h

/-- Two formats, one after the other. -/
theorem sprintf_append {f g : List Piece} {args args' : List Arg} {s t : List Char}
    (hs : sprintf f args = some s) (ht : sprintf g args' = some t) :
    sprintf (f ++ g) (args ++ args') = some (s ++ t) := by
  fun_induction sprintf f args generalizing s with
  | case1 =>
      cases hs
      exact ht
  | case2 u f args ih | case3 f u args ih | case4 f n args ih =>
      obtain ⟨v, hv, rfl⟩ := Option.map_eq_some_iff.mp hs
      simp only [List.cons_append, sprintf]
      rw [ih hv, Option.map_some, List.append_assoc]
  | case5 => cases hs

/-- No line ends but where the format ends one. -/
theorem count_sprintf {f : List Piece} {args : List Arg} {t : List Char}
    (hargs : ∀ s, .string s ∈ args → '\n' ∉ s) (h : sprintf f args = some t) :
    t.count '\n' = newlines f := by
  fun_induction sprintf f args generalizing t with
  | case1 =>
      cases h
      rfl
  | case2 s f args ih =>
      obtain ⟨u, hu, rfl⟩ := Option.map_eq_some_iff.mp h
      rw [List.count_append, ih hargs hu, newlines]
  | case3 f s args ih =>
      obtain ⟨u, hu, rfl⟩ := Option.map_eq_some_iff.mp h
      rw [List.count_append, List.count_eq_zero.mpr (hargs s List.mem_cons_self), Nat.zero_add,
        ih (fun s' hs' => hargs s' (List.mem_cons_of_mem _ hs')) hu, newlines]
      exact nofun
  | case4 f n args ih =>
      obtain ⟨u, hu, rfl⟩ := Option.map_eq_some_iff.mp h
      rw [List.count_append, List.count_eq_zero.mpr (newline_notMem_decimal n), Nat.zero_add,
        ih (fun s' hs' => hargs s' (List.mem_cons_of_mem _ hs')) hu, newlines]
      exact nofun
  | case5 => cases h

/-! ## The last lines of a text -/

/-- What stands behind the first `k` lines. -/
def dropLines : Nat → List Char → List Char
  | 0, s => s
  | k + 1, s => dropLines k (s.dropWhile (· ≠ '\n')).tail

/-- The lines of a text are dropped one by one. -/
theorem dropLines_append (s rest : List Char) :
    dropLines (s.count '\n' + 1) (s ++ '\n' :: rest) = rest := by
  induction s with
  | nil => rfl
  | cons c s ih =>
      by_cases hc : c = '\n'
      · subst hc
        rw [List.count_cons_self]
        exact ih
      · rw [List.count_cons_of_ne hc, dropLines, List.cons_append,
          List.dropWhile_cons_of_pos (p := (· ≠ '\n')) (decide_eq_true hc)]
        exact ih

end CText
