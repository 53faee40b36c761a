import Mlog.Proofs.Lexing

/-! # Tokens in any layout

    Tokens are spelled one after another, with blanks and comments between them.
    However they are laid out, lexing gives back the tokens and the texts of the
    comments, and finds no fault.

    * `Layout`: tokens with separators between them, all well-formed by type.
    * `kindsOf_chars`: what the text of a layout is cut into.
    * `lex_layout`: what it is sorted into. -/

namespace Mlog

/-! ## Section 1: Spelling -/

namespace Token

/-- How a token is written. -/
def spelling : Token → List Char
  | keyword k => k.spelling.toList
  | symbol s => s.chars
  | number text => text.toList
  | str text => (Text.quoted text).toList
  | ident name => name.toList
  | eof => []

/-- The token has a spelling of its own: a number is made of digits, maybe with a
    point between them; a string is on one line and has no backslash before its
    closing quote; a name is no keyword. -/
def isSpellable : Token → Bool
  | keyword _ | symbol _ => true
  | number text => Text.isNumeral text.toList
  | str text => !text.toList.contains '\n' && text.toList.getLast? != some '\\'
  | ident name => Text.isName name
  | eof => false

end Token

/-- A token that can be written. -/
structure Lexeme where
  token : Token
  isSpellable : token.isSpellable = true

/-- The text ends here, or there is a blank. -/
def Parted (rest : List Char) : Prop := ∀ c ∈ rest.head?, isBlank c = true

theorem Parted.ends {p : Char → Bool} {rest : List Char} (h : Parted rest)
    (hblanks : [' ', '\t', '\n', '\x0c', '\r'].any p = false) : Ends p rest := by
  intro c hc
  have hblank := h c hc
  cases hp : p c with
  | false => rfl
  | true =>
    rw [isBlank_eq_false hp hblanks] at hblank
    exact absurd hblank (by decide)

/-- A token is read off its spelling, if the text ends there or a blank follows. -/
theorem Lexeme.readAs (t : Lexeme) {rest : List Char} (hrest : Parted rest) :
    ReadAs t.token.spelling t.token rest := by
  obtain ⟨token, h⟩ := t
  cases token with
  | keyword k => exact readAs_keyword k (hrest.ends rfl)
  | symbol s => exact readAs_symbol s (.inr (hrest.ends rfl))
  | number text =>
    have hread := readAs_number h (hrest.ends rfl)
    rwa [String.ofList_toList] at hread
  | str text =>
    obtain ⟨hline, hlast⟩ : '\n' ∉ text.toList ∧ text.toList.getLast? ≠ some '\\' := by
      simpa [Token.isSpellable] using h
    exact readAs_quoted hline hlast
  | ident name => exact readAs_ident h (hrest.ends rfl)
  | eof => exact absurd h (by decide)

/-! ## Section 2: Separators -/

/-- What may stand between tokens: a blank, or a comment with its line break. -/
inductive Filler
  | blank (c : Char) (isBlank_c : isBlank c = true)
  | comment (line : List Char) (oneLine : '\n' ∉ line)

namespace Filler

def chars : Filler → List Char
  | blank c _ => [c]
  | comment line _ => '/' :: '/' :: line ++ ['\n']

/-- The text of the comment, without the blanks around it. -/
def comment? : Filler → Option String
  | blank _ _ => none
  | comment line _ => some (Text.trim (String.ofList line))

theorem kindsOf_chars (f : Filler) (rest : List Char) :
    kindsOf (f.chars ++ rest) = (f.comment?.map Piece.Kind.comment).toList ++ kindsOf rest := by
  cases f with
  | blank c hc => exact kindsOf_blank hc rest
  | comment line hline =>
    have hrun : splitRun (· ≠ '\n') ('/' :: line ++ '\n' :: rest) =
        ('/' :: line, '\n' :: rest) := by
      apply splitRun_of_run
      · intro c hc
        rcases List.mem_cons.mp hc with rfl | hc
        · decide
        · simpa using fun heq : c = '\n' => hline (heq ▸ hc)
      · exact ends_cons (by decide)
    have hpiece : firstPiece '/' ('/' :: line ++ '\n' :: rest) =
        (⟨'/' :: '/' :: line, .comment (Text.trim (String.ofList line))⟩, '\n' :: rest) := by
      rw [firstPiece, if_neg (by decide), if_pos (by simp), hrun]
      rfl
    have htext : (comment line hline).chars ++ rest = '/' :: ('/' :: line ++ '\n' :: rest) := by
      simp [chars]
    -- the line break after a comment is a blank of its own
    rw [htext, kindsOf_cons hpiece (by simp), kindsOf_blank rfl]
    rfl

end Filler

/-- Blanks and comments, a blank first. -/
structure Separator where
  first : Char
  isBlank_first : isBlank first = true
  fillers : List Filler

namespace Separator

def chars (s : Separator) : List Char := s.first :: s.fillers.flatMap Filler.chars

/-- The comments in a separator. -/
def comments (s : Separator) : List String := s.fillers.filterMap Filler.comment?

theorem kindsOf_chars (s : Separator) (rest : List Char) :
    kindsOf (s.chars ++ rest) = s.comments.map .comment ++ kindsOf rest := by
  obtain ⟨c, hc, fillers⟩ := s
  rw [chars, List.cons_append, kindsOf_blank hc, comments]
  show kindsOf (fillers.flatMap Filler.chars ++ rest) =
    (fillers.filterMap Filler.comment?).map .comment ++ kindsOf rest
  induction fillers with
  | nil => rfl
  | cons f fillers ih =>
    rw [List.flatMap_cons, List.append_assoc, f.kindsOf_chars, ih, List.filterMap_cons]
    cases f.comment? <;> rfl

theorem parted (s : Separator) (rest : List Char) : Parted (s.chars ++ rest) := by
  intro c hc
  obtain rfl := Option.some.inj hc
  exact s.isBlank_first

end Separator

/-! ## Section 3: Layouts -/

/-- Tokens in their order, with a separator between each two.  There may be one after
    the last token, too. -/
inductive Layout
  | empty
  | last (t : Lexeme)
  | next (t : Lexeme) (s : Separator) (more : Layout)

namespace Layout

def chars : Layout → List Char
  | empty => []
  | last t => t.token.spelling
  | next t s more => t.token.spelling ++ s.chars ++ more.chars

/-- The tokens that are laid out. -/
def tokens : Layout → List Token
  | empty => []
  | last t => [t.token]
  | next t _ more => t.token :: more.tokens

/-- The comments between the tokens. -/
def comments : Layout → List String
  | empty | last _ => []
  | next _ s more => s.comments ++ more.comments

/-- The tokens and the comments between them. -/
def kinds : Layout → List Piece.Kind
  | empty => []
  | last t => [.token t.token]
  | next t s more => .token t.token :: s.comments.map .comment ++ more.kinds

/-- The text of a layout is cut into its tokens and comments. -/
theorem kindsOf_chars (l : Layout) : kindsOf l.chars = l.kinds := by
  induction l with
  | empty => exact kindsOf_nil
  | last t =>
    have hend : Parted [] := fun c hc => absurd hc (by simp)
    have hread := (t.readAs hend).kindsOf_eq
    rwa [List.append_nil, kindsOf_nil] at hread
  | next t s more ih =>
    rw [chars, List.append_assoc, (t.readAs (s.parted more.chars)).kindsOf_eq, s.kindsOf_chars, ih]
    rfl

/-- Sorting what a layout is cut into gives its tokens, its comments, and no faults. -/
theorem sort_kinds (l : Layout) :
    l.kinds.filterMap Piece.Kind.token? = l.tokens ∧
      l.kinds.filterMap Piece.Kind.comment? = l.comments ∧
      l.kinds.filterMap Piece.Kind.fault? = [] := by
  induction l with
  | empty => exact ⟨rfl, rfl, rfl⟩
  | last t => exact ⟨rfl, rfl, rfl⟩
  | next t s more ih =>
    obtain ⟨htokens, hcomments, hfaults⟩ := ih
    -- a separation has comments only, so two of the three sorts find nothing in it
    have hnone : ∀ {α : Type}, s.comments.filterMap (fun _ => (none : Option α)) = [] :=
      List.filterMap_eq_nil_iff.mpr fun _ _ => rfl
    have hsome : s.comments.filterMap some = s.comments := List.filterMap_some
    refine ⟨?_, ?_, ?_⟩
    · show t.token :: (s.comments.map Piece.Kind.comment ++ more.kinds).filterMap _ = _
      rw [List.filterMap_append, List.filterMap_map, htokens]
      exact congrArg (t.token :: · ++ more.tokens) hnone
    · show (s.comments.map Piece.Kind.comment ++ more.kinds).filterMap _ = _
      rw [List.filterMap_append, List.filterMap_map, hcomments]
      exact congrArg (· ++ more.comments) hsome
    · show (s.comments.map Piece.Kind.comment ++ more.kinds).filterMap _ = _
      rw [List.filterMap_append, List.filterMap_map, hfaults, List.append_nil]
      exact hnone

end Layout

/-- Lexing undoes spelling, whatever the layout: the text of a layout is sorted into its
    tokens, with the end of the file behind them, and its comments, and nothing is
    reported. -/
theorem lex_layout (l : Layout) :
    (lex (String.ofList l.chars)).tokens.map Located.value = l.tokens ++ [.eof] ∧
      (lex (String.ofList l.chars)).comments.map Located.value = l.comments ∧
      (lex (String.ofList l.chars)).diagnostics = [] := by
  obtain ⟨htokens, hcomments, hfaults⟩ := values_lex (String.ofList l.chars)
  obtain ⟨htokens', hcomments', hfaults'⟩ := l.sort_kinds
  rw [String.toList_ofList, l.kindsOf_chars] at htokens hcomments hfaults
  refine ⟨by rw [htokens, htokens'], by rw [hcomments, hcomments'], ?_⟩
  rw [Lexed.diagnostics, List.map_eq_nil_iff.mp (hfaults.trans hfaults'), List.map_nil]

/-- A division, a comment and a string with a quote in it. -/
example : (Layout.next ⟨.symbol .slash, rfl⟩ ⟨' ', rfl, [.comment " half".toList (by decide)]⟩
    (.last ⟨.str "a\"b", rfl⟩)).chars = "/ // half\n\"a\\\"b\"".toList := by decide

end Mlog
