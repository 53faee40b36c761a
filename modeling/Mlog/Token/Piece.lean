import Mlog.Text.Quoted
import Mlog.Text.Space
import Mlog.Token

/-! # Cutting a source text into pieces

    A source text is cut from left to right into pieces: runs of blanks,
    comments, tokens, and stretches that are no part of the language.  Each
    piece keeps the characters it covers, so the pieces together are the
    whole text (`flatMap_text_cut`).

    At every place the longest piece of its kind is taken: a name or a run
    of digits goes on as far as it can, and of two symbols that fit the
    longer one wins. -/

namespace Mlog

/-! ## Section 1: Character classes -/

/-- The characters that separate tokens: space, tab, line feed, form feed and
    carriage return. -/
def isBlank (c : Char) : Bool :=
  c == ' ' || c == '\t' || c == '\n' || c == '\x0c' || c == '\r'

/-- The characters that a name can start with: ASCII letters and `_`. -/
def isNameStart (c : Char) : Bool := c.isAlpha || c == '_'

/-- The characters that a name goes on with: ASCII letters, digits and `_`. -/
def isNameChar (c : Char) : Bool := c.isAlphanum || c == '_'

/-! ## Section 2: Pieces -/

/-- Why a stretch of text is no part of the language. -/
inductive LexicalFault
  /-- A string literal without its closing quote on the same line. -/
  | unterminatedString
  /-- One `&` or `|` where only the doubled sign is an operator. -/
  | singleSign (sign : Char)
  | unknownCharacter (c : Char)
deriving DecidableEq, Repr

/-- What a stretch of source text is. -/
inductive Piece.Kind
  | blank
  | comment (text : String)
  | token (token : Token)
  | fault (fault : LexicalFault)
deriving DecidableEq, Repr

/-- A stretch of source text and what it is. -/
structure Piece where
  text : List Char
  kind : Piece.Kind
deriving DecidableEq, Repr

/-! ## Section 3: Where a piece ends

    Each function takes a text and splits it into the characters that belong
    to the piece and those that follow. -/

/-- Splits off the longest part made of one class of characters. -/
def splitRun (p : Char → Bool) (cs : List Char) : List Char × List Char :=
  (cs.takeWhile p, cs.dropWhile p)

/-- Splits off a number: digits, then a point and more digits if a digit
    follows the point. -/
def splitNumber (cs : List Char) : List Char × List Char :=
  let (whole, rest) := splitRun Char.isDigit cs
  match rest with
  | '.' :: d :: more =>
    -- a point without a digit after it is the next piece, as in `1.x`
    if d.isDigit then
      let (fraction, after) := splitRun Char.isDigit more
      (whole ++ '.' :: d :: fraction, after)
    else (whole, rest)
  | _ => (whole, rest)

/-- Splits off the inside of a string literal, up to the closing quote or, if
    there is none, the end of the line.  A quote after a backslash does not
    close the literal. -/
def splitString : List Char → List Char × List Char
  | '\\' :: '"' :: cs =>
    let (inside, after) := splitString cs
    ('\\' :: '"' :: inside, after)
  | c :: cs =>
    if c = '"' ∨ c = '\n' then ([], c :: cs)
    else
      let (inside, after) := splitString cs
      (c :: inside, after)
  | [] => ([], [])

theorem splitRun_append (p : Char → Bool) (cs : List Char) :
    (splitRun p cs).1 ++ (splitRun p cs).2 = cs := by
  simp [splitRun]

theorem splitNumber_append (cs : List Char) :
    (splitNumber cs).1 ++ (splitNumber cs).2 = cs := by
  have h := splitRun_append Char.isDigit cs
  simp only [splitNumber]
  split
  · rename_i d more hr
    split
    · rw [hr] at h
      simpa [splitRun] using h
    · simpa using h
  · exact h

theorem splitString_append (cs : List Char) :
    (splitString cs).1 ++ (splitString cs).2 = cs := by
  fun_induction splitString cs <;> simp_all

/-! ## Section 4: The first piece -/

/-- The piece that a string literal makes, `cs` being what follows the opening
    quote, and what follows the piece. -/
def stringPiece (cs : List Char) : Piece × List Char :=
  match splitString cs with
  | (inside, '"' :: after) =>
    (⟨'"' :: inside ++ ['"'], .token (.str (String.ofList (Text.unescape inside)))⟩, after)
  | (inside, after) => (⟨'"' :: inside, .fault .unterminatedString⟩, after)

/-- The token that a name is: a keyword if it is spelled like one. -/
def nameToken (name : String) : Token :=
  match Keyword.ofSpelling? name with
  | some k => .keyword k
  | none => .ident name

/-- The piece that starts with neither blank, comment, name, number nor quote:
    the longest symbol, or else one character that is no part of the
    language. -/
def signPiece (c : Char) (cs : List Char) : Piece × List Char :=
  match Symbol.longest? (c :: cs) with
  | some s => (⟨s.chars, .token (.symbol s)⟩, (c :: cs).drop s.chars.length)
  | none =>
    if c = '&' ∨ c = '|' then (⟨[c], .fault (.singleSign c)⟩, cs)
    else (⟨[c], .fault (.unknownCharacter c)⟩, cs)

/-- The first piece of the text `c :: cs`, and what follows it. -/
def firstPiece (c : Char) (cs : List Char) : Piece × List Char :=
  if isBlank c then
    let (run, after) := splitRun isBlank cs
    (⟨c :: run, .blank⟩, after)
  -- before the symbols, or two slashes would be two divisions
  else if c = '/' ∧ cs.head? = some '/' then
    let (line, after) := splitRun (· ≠ '\n') cs
    (⟨c :: line, .comment (Text.trim (String.ofList (line.drop 1)))⟩, after)
  else if isNameStart c then
    let (run, after) := splitRun isNameChar cs
    (⟨c :: run, .token (nameToken (String.ofList (c :: run)))⟩, after)
  else if c.isDigit then
    let (digits, after) := splitNumber (c :: cs)
    (⟨digits, .token (.number (String.ofList digits))⟩, after)
  else if c = '"' then stringPiece cs
  else signPiece c cs

theorem stringPiece_append (cs : List Char) :
    (stringPiece cs).1.text ++ (stringPiece cs).2 = '"' :: cs := by
  have h := splitString_append cs
  unfold stringPiece
  split
  · rename_i inside after heq
    rw [heq] at h
    simpa using h
  · rename_i inside after _ heq
    rw [heq] at h
    simpa using h

theorem Symbol.chars_append_of_longest? {text : List Char} {s : Symbol}
    (h : longest? text = some s) : s.chars ++ text.drop s.chars.length = text := by
  have hp : s.chars <+: text := by simpa using List.find?_some h
  obtain ⟨rest, rfl⟩ := hp
  simp

theorem signPiece_append (c : Char) (cs : List Char) :
    (signPiece c cs).1.text ++ (signPiece c cs).2 = c :: cs := by
  unfold signPiece
  split
  · rename_i s hs
    exact Symbol.chars_append_of_longest? hs
  · split <;> rfl

/-- A piece and what follows it make up the text. -/
theorem firstPiece_append (c : Char) (cs : List Char) :
    (firstPiece c cs).1.text ++ (firstPiece c cs).2 = c :: cs := by
  unfold firstPiece
  split
  · simp [splitRun]
  · split
    · simp [splitRun]
    · split
      · simp [splitRun]
      · split
        · exact splitNumber_append (c :: cs)
        · split
          · rename_i h
            rw [stringPiece_append, h]
          · exact signPiece_append c cs

theorem splitNumber_ne_nil {c : Char} (h : c.isDigit) (cs : List Char) :
    (splitNumber (c :: cs)).1 ≠ [] := by
  simp only [splitNumber, splitRun, List.takeWhile_cons, h, if_true]
  split
  · split <;> simp
  · simp

theorem stringPiece_text_ne_nil (cs : List Char) : (stringPiece cs).1.text ≠ [] := by
  unfold stringPiece
  split <;> simp

theorem Symbol.chars_ne_nil (s : Symbol) : s.chars ≠ [] := by cases s <;> simp [chars]

theorem signPiece_text_ne_nil (c : Char) (cs : List Char) : (signPiece c cs).1.text ≠ [] := by
  unfold signPiece
  split
  · exact Symbol.chars_ne_nil _
  · split <;> simp

/-- A piece covers at least one character. -/
theorem firstPiece_text_ne_nil (c : Char) (cs : List Char) :
    (firstPiece c cs).1.text ≠ [] := by
  unfold firstPiece
  split
  · simp
  · split
    · simp
    · split
      · simp
      · split
        · rename_i h
          exact splitNumber_ne_nil h cs
        · split
          · exact stringPiece_text_ne_nil cs
          · exact signPiece_text_ne_nil c cs

theorem length_firstPiece_lt (c : Char) (cs : List Char) :
    (firstPiece c cs).2.length < (c :: cs).length := by
  have happ := congrArg List.length (firstPiece_append c cs)
  have hpos := List.length_pos_iff.mpr (firstPiece_text_ne_nil c cs)
  simp only [List.length_append] at happ
  omega

/-! ## Section 5: All pieces -/

/-- Cuts a text into its pieces. -/
def cut : List Char → List Piece
  | [] => []
  | c :: cs => (firstPiece c cs).1 :: cut (firstPiece c cs).2
termination_by cs => cs.length
decreasing_by exact length_firstPiece_lt c cs

@[simp] theorem cut_nil : cut [] = [] := by simp [cut]

theorem cut_cons (c : Char) (cs : List Char) :
    cut (c :: cs) = (firstPiece c cs).1 :: cut (firstPiece c cs).2 := by rw [cut]

/-- The pieces of a text, put together, are the text. -/
theorem flatMap_text_cut (cs : List Char) : (cut cs).flatMap Piece.text = cs := by
  fun_induction cut cs with
  | case1 => rfl
  | case2 c cs ih => rw [List.flatMap_cons, ih, firstPiece_append]

end Mlog
