import Mlog.Text.Split
import Mlog.Token.Piece

/-! # How literals and names are spelled

    The texts that numbers, names and strings have in a program, as classes
    of texts that can be decided, and the shape of the texts in each. -/

namespace Mlog.Text

/-! ## Section 1: Numbers -/

/-- One digit or more. -/
def isDigits (cs : List Char) : Bool := !cs.isEmpty && cs.all Char.isDigit

/-- Digits, or digits with a point between them. -/
def isNumeral (cs : List Char) : Bool :=
  match cutAt '.' cs with
  | none => isDigits cs
  | some (whole, fraction) => isDigits whole && isDigits fraction

/-- What stands around the first occurrence of a character. -/
theorem eq_append_of_cutAt {sep : Char} {cs before after : List Char}
    (h : cutAt sep cs = some (before, after)) : cs = before ++ sep :: after := by
  unfold cutAt at h
  split at h
  · exact absurd h (by simp)
  · rename_i c rest hdrop
    obtain ⟨rfl, rfl⟩ := Prod.mk.inj (Option.some.inj h)
    have hc : c = sep := by
      have hhead := List.head?_dropWhile_not (· ≠ sep) cs
      rw [hdrop] at hhead
      simpa using hhead
    subst hc
    rw [← hdrop, List.takeWhile_append_dropWhile]

/-- The two shapes of a numeral. -/
theorem isNumeral_cases {cs : List Char} (h : isNumeral cs = true) :
    isDigits cs = true ∨
      ∃ whole fraction, cs = whole ++ '.' :: fraction ∧
        isDigits whole = true ∧ isDigits fraction = true := by
  unfold isNumeral at h
  split at h
  · exact .inl h
  · rename_i whole fraction hcut
    obtain ⟨hwhole, hfraction⟩ := Bool.and_eq_true_iff.mp h
    exact .inr ⟨whole, fraction, eq_append_of_cutAt hcut, hwhole, hfraction⟩

theorem isDigits_cons {c : Char} {cs : List Char} :
    isDigits (c :: cs) = true ↔ c.isDigit = true ∧ ∀ d ∈ cs, d.isDigit = true := by
  simp [isDigits]

/-- A numeral starts with a digit. -/
theorem isDigit_of_isNumeral {c : Char} {cs : List Char} (h : isNumeral (c :: cs) = true) :
    c.isDigit = true := by
  rcases isNumeral_cases h with hdigits | ⟨whole, fraction, heq, hwhole, _⟩
  · exact (isDigits_cons.mp hdigits).1
  · cases whole with
    | nil => simp [isDigits] at hwhole
    | cons d ds =>
      obtain ⟨rfl, _⟩ := List.cons.inj heq
      exact (isDigits_cons.mp hwhole).1

/-- A numeral, or one with a minus sign. -/
def isNumber (s : String) : Bool :=
  match s.toList with
  | '-' :: cs => isNumeral cs
  | cs => isNumeral cs

/-- The two shapes of a number. -/
theorem isNumber_cases {s : String} (h : isNumber s = true) :
    (∃ cs, s.toList = '-' :: cs ∧ isNumeral cs = true) ∨ isNumeral s.toList = true := by
  unfold isNumber at h
  split at h
  · rename_i cs heq
    exact .inl ⟨cs, heq, h⟩
  · exact .inr h

theorem isNumber_of_isNumeral {s : String} (h : isNumeral s.toList = true) : isNumber s = true := by
  unfold isNumber
  split
  · rename_i cs heq
    rw [heq] at h
    exact absurd (isDigit_of_isNumeral h) (by decide)
  · exact h

theorem isNumber_minus {s : String} (h : isNumeral s.toList = true) :
    isNumber ("-" ++ s) = true := by
  simpa [isNumber] using h

/-! ## Section 2: Names -/

/-- A name that is no keyword. -/
def isName (s : String) : Bool :=
  match s.toList with
  | [] => false
  | c :: cs => isNameStart c && cs.all isNameChar && (Keyword.ofSpelling? s).isNone

/-- A name with the sign of a built-in before it. -/
def isSigned (s : String) : Bool :=
  match s.toList with
  | '@' :: cs => isName (String.ofList cs)
  | _ => false

theorem isName_cases {s : String} (h : isName s = true) :
    ∃ c cs, s.toList = c :: cs ∧ isNameStart c = true ∧ (∀ d ∈ cs, isNameChar d = true) ∧
      nameToken s = .ident s := by
  unfold isName at h
  split at h
  · exact absurd h (by simp)
  · rename_i c cs heq
    simp only [Bool.and_eq_true, List.all_eq_true] at h
    obtain ⟨⟨hstart, hchars⟩, hkeyword⟩ := h
    refine ⟨c, cs, heq, hstart, hchars, ?_⟩
    rw [nameToken, Option.isNone_iff_eq_none.mp hkeyword]

theorem isSigned_cases {s : String} (h : isSigned s = true) :
    ∃ name, s = "@" ++ name ∧ isName name = true := by
  unfold isSigned at h
  split at h
  · rename_i cs heq
    refine ⟨String.ofList cs, ?_, h⟩
    simp [← String.toList_inj, heq]
  · exact absurd h (by simp)

theorem isSigned_append {name : String} (h : isName name = true) :
    isSigned ("@" ++ name) = true := by
  simpa [isSigned] using h

/-- A name is what is left of it when the sign is taken off again. -/
theorem dropWhile_signed {name : String} (h : isName name = true) :
    String.ofList (("@" ++ name).toList.dropWhile (· == '@')) = name := by
  obtain ⟨c, cs, hs, hstart, _⟩ := isName_cases h
  have hsign : c ≠ '@' := by
    intro hc
    rw [hc] at hstart
    exact absurd hstart (by decide)
  simp [← String.toList_inj, hs, hsign]

/-! ## Section 3: Strings -/

/-- A text that a string literal holds as it is: without quotes and line
    breaks, and with no backslash before the closing quote. -/
def isPlain (s : String) : Bool :=
  !s.toList.contains '"' && !s.toList.contains '\n' && s.toList.getLast? != some '\\'

end Mlog.Text
