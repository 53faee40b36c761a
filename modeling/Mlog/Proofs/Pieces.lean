import Mathlib.Data.List.TakeWhile
import Mlog.Proofs.Spelling

/-! # How the pieces of a text are written

    Each piece that a source text is cut into covers characters that show what
    the piece is: the characters of a name, a number, a keyword or a symbol are
    its spelling, those of a string literal its text between quotes, a comment
    is the rest of a line after two slashes, and blanks are blank.

    One case for each scanner (`written_name`, `written_number`, …) gives the
    first piece of a text, and from it all pieces (`written_of_mem_cut`). -/

namespace Mlog

/-! ## Section 1: Written tokens and pieces -/

/-- The characters are how the token is written. -/
def Token.Written (cs : List Char) : Token → Prop
  | keyword k => cs = k.spelling.toList
  | symbol s => cs = s.spelling.toList
  | number text => cs = text.toList ∧ Text.isNumeral cs = true
  | str text =>
    ∃ inside, cs = '"' :: inside ++ ['"'] ∧ '\n' ∉ inside ∧
      text = String.ofList (Text.unescape inside)
  | ident name => cs = name.toList ∧ Text.isName name = true
  -- the end of the file is no piece of the text
  | eof => False

/-- The characters of a piece are how it is written. -/
def Piece.Written (p : Piece) : Prop :=
  match p.kind with
  | .blank => ∀ c ∈ p.text, isBlank c = true
  | .comment text =>
    ∃ rest, p.text = '/' :: '/' :: rest ∧ '\n' ∉ rest ∧ text = Text.trim (String.ofList rest)
  | .token t => t.Written p.text
  | .fault _ => True

/-! ## Section 2: Scanners -/

theorem written_name {c : Char} {run : List Char} (hstart : isNameStart c = true)
    (hrun : ∀ d ∈ run, isNameChar d = true) :
    (nameToken (String.ofList (c :: run))).Written (c :: run) := by
  unfold nameToken
  cases hkeyword : Keyword.ofSpelling? (String.ofList (c :: run)) with
  | some k =>
    -- only the keyword with this spelling is found
    have hspelling : k.spelling = String.ofList (c :: run) := by
      simpa using List.find?_some hkeyword
    show c :: run = k.spelling.toList
    rw [hspelling, String.toList_ofList]
  | none =>
    refine ⟨by rw [String.toList_ofList], ?_⟩
    unfold Text.isName
    rw [String.toList_ofList, hkeyword]
    simpa [hstart] using hrun

/-- A point that is in a text is found. -/
theorem cutAt_of_not_mem {sep : Char} {before : List Char} (h : sep ∉ before) (after : List Char) :
    Text.cutAt sep (before ++ sep :: after) = some (before, after) := by
  have hbefore : ∀ c ∈ before, (decide (c ≠ sep)) = true := by
    intro c hc
    exact decide_eq_true fun heq => h (heq ▸ hc)
  unfold Text.cutAt
  rw [List.dropWhile_append_of_pos hbefore, List.takeWhile_append_of_pos hbefore]
  simp

theorem not_mem_of_isDigits {cs : List Char} (h : Text.isDigits cs = true) : '.' ∉ cs := by
  intro hmem
  simp only [Text.isDigits, Bool.and_eq_true, List.all_eq_true] at h
  exact absurd (h.2 '.' hmem) (by decide)

theorem isNumeral_of_isDigits {cs : List Char} (h : Text.isDigits cs = true) :
    Text.isNumeral cs = true := by
  have hdrop : cs.dropWhile (· ≠ '.') = [] := by
    rw [List.dropWhile_eq_nil_iff]
    intro c hc
    exact decide_eq_true fun heq => not_mem_of_isDigits h (heq ▸ hc)
  unfold Text.isNumeral Text.cutAt
  rw [hdrop]
  exact h

theorem isNumeral_of_fraction {whole fraction : List Char} (hwhole : Text.isDigits whole = true)
    (hfraction : Text.isDigits fraction = true) :
    Text.isNumeral (whole ++ '.' :: fraction) = true := by
  unfold Text.isNumeral
  rw [cutAt_of_not_mem (not_mem_of_isDigits hwhole)]
  simp [hwhole, hfraction]

/-- What is split off from a digit on is a numeral. -/
theorem isNumeral_splitNumber {c : Char} (h : c.isDigit = true) (cs : List Char) :
    Text.isNumeral (splitNumber (c :: cs)).1 = true := by
  have hrun : ∀ ds : List Char, ∀ d ∈ (splitRun Char.isDigit ds).1, d.isDigit = true :=
    fun ds d hd => List.mem_takeWhile_imp hd
  have hwhole : Text.isDigits (splitRun Char.isDigit (c :: cs)).1 = true := by
    have hfirst : (splitRun Char.isDigit (c :: cs)).1 = c :: (splitRun Char.isDigit cs).1 := by
      simp [splitRun, h]
    rw [hfirst]
    exact Text.isDigits_cons.mpr ⟨h, hrun cs⟩
  simp only [splitNumber]
  split
  · rename_i d more _
    by_cases hd : d.isDigit = true
    · -- the point is followed by a digit
      rw [if_pos hd]
      exact isNumeral_of_fraction hwhole (Text.isDigits_cons.mpr ⟨hd, hrun more⟩)
    · rw [if_neg hd]
      exact isNumeral_of_isDigits hwhole
  · exact isNumeral_of_isDigits hwhole

/-- The inside of a string literal stays on its line. -/
theorem not_mem_splitString (cs : List Char) : '\n' ∉ (splitString cs).1 := by
  fun_induction splitString cs with
  | case1 cs inside after heq ih => simpa [heq] using ih
  | case2 c cs _ h => simp
  | case3 c cs _ h inside after heq ih =>
    rw [heq] at ih
    simp only [not_or] at h
    simp [ih, Ne.symm h.2]
  | case4 => simp

theorem written_stringPiece (cs : List Char) : (stringPiece cs).1.Written := by
  have hline := not_mem_splitString cs
  unfold stringPiece
  split
  · rename_i inside after heq
    rw [heq] at hline
    exact ⟨inside, rfl, hline, rfl⟩
  · exact trivial

theorem written_signPiece (c : Char) (cs : List Char) : (signPiece c cs).1.Written := by
  unfold signPiece
  split
  · rename_i s _
    show s.chars = s.spelling.toList
    rw [Symbol.spelling, String.toList_ofList]
  · split
    · exact trivial
    · exact trivial

/-! ## Section 3: All pieces -/

theorem written_firstPiece (c : Char) (cs : List Char) : (firstPiece c cs).1.Written := by
  unfold firstPiece
  by_cases hblank : isBlank c = true
  · rw [if_pos hblank]
    intro d hd
    rcases List.mem_cons.mp hd with rfl | hd
    · exact hblank
    · exact List.mem_takeWhile_imp hd
  rw [if_neg hblank]
  by_cases hcomment : c = '/' ∧ cs.head? = some '/'
  · -- the second slash is part of the line, which stops before its break
    obtain ⟨rfl, hslash⟩ := hcomment
    obtain ⟨rest, rfl⟩ : ∃ rest, cs = '/' :: rest := by
      cases cs with
      | nil => exact absurd hslash (by simp)
      | cons d rest => exact ⟨rest, by simpa using hslash⟩
    rw [if_pos ⟨rfl, rfl⟩]
    refine ⟨(splitRun (· ≠ '\n') rest).1, by simp [splitRun], ?_, by simp [splitRun]⟩
    intro hmem
    exact absurd (List.mem_takeWhile_imp hmem) (by simp)
  rw [if_neg hcomment]
  by_cases hname : isNameStart c = true
  · rw [if_pos hname]
    exact written_name hname fun d hd => List.mem_takeWhile_imp hd
  rw [if_neg hname]
  by_cases hdigit : c.isDigit = true
  · rw [if_pos hdigit]
    exact ⟨by rw [String.toList_ofList], isNumeral_splitNumber hdigit cs⟩
  rw [if_neg hdigit]
  by_cases hquote : c = '"'
  · rw [if_pos hquote]
    exact written_stringPiece cs
  · rw [if_neg hquote]
    exact written_signPiece c cs

/-- Every piece of a text is written as its kind says, and covers something. -/
theorem written_of_mem_cut {cs : List Char} {p : Piece} (h : p ∈ cut cs) :
    p.Written ∧ p.text ≠ [] := by
  fun_induction cut cs with
  | case1 => exact absurd h List.not_mem_nil
  | case2 c cs ih =>
    rcases List.mem_cons.mp h with rfl | h
    · exact ⟨written_firstPiece c cs, firstPiece_text_ne_nil c cs⟩
    · exact ih h

end Mlog
