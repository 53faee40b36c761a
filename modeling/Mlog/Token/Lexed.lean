import Mlog.Source.Diagnostic
import Mlog.Token.Piece

/-! # Lexed source texts

    The pieces of a source text, each at its place, sorted into tokens,
    comments and faults.  The token list ends in the end-of-file token, which
    covers nothing and stands at the end of the text.  `lexWide` has the places
    as they are, `lex` as they are kept, in 32 bits. -/

namespace Mlog

/-! ## Section 1: Faults in words -/

namespace LexicalFault

/-- What is wrong. -/
def message : LexicalFault → String
  | unterminatedString => "unterminated string literal"
  | singleSign c => "unexpected '" ++ String.singleton c ++ "'"
  | unknownCharacter c => "unexpected character '" ++ String.singleton c ++ "'"

/-- What the author can do about it. -/
def help : LexicalFault → String
  | unterminatedString => "close the string with `\"` on the same line"
  | singleSign c =>
    "Mindcode has no bitwise operators; use `" ++ String.ofList [c, c] ++ "` for the logical form"
  | unknownCharacter _ => "this character is not recognized as part of Mindcode syntax"

/-- The report of a fault. -/
def diagnostic (fault : Located LexicalFault) : Diagnostic :=
  (Diagnostic.located fault.value.message fault.span).withHelp fault.value.help

end LexicalFault

/-! ## Section 2: Places -/

/-- Gives each piece its place, the first one starting at `offset`. -/
def locate (offset : Nat) : List Piece → List (Located Piece)
  | [] => []
  | p :: ps =>
    let stop := offset + byteLength p.text
    ⟨p, ⟨offset, stop⟩⟩ :: locate stop ps

/-- The pieces of a source text, each at its place. -/
def piecesOf (source : String) : List (Located Piece) := locate 0 (cut source.toList)

/-! ## Section 3: Sorting -/

/-- The token that a located piece is. -/
def Located.token? (p : Located Piece) : Option (Located Token) :=
  match p.value.kind with
  | .token t => some ⟨t, p.span⟩
  | _ => none

/-- The comment that a located piece is. -/
def Located.comment? (p : Located Piece) : Option Comment :=
  match p.value.kind with
  | .comment text => some ⟨text, p.span⟩
  | _ => none

/-- The fault that a located piece is. -/
def Located.fault? (p : Located Piece) : Option (Located LexicalFault) :=
  match p.value.kind with
  | .fault f => some ⟨f, p.span⟩
  | _ => none

/-- A source text sorted into tokens, comments and faults, each in the order
    of the text. -/
structure Lexed where
  tokens : List (Located Token)
  comments : List Comment
  faults : List (Located LexicalFault)
deriving DecidableEq, Repr

/-- The end-of-file token of a text that ends at `offset`. -/
def endOfFile (offset : Nat) : Located Token := ⟨.eof, ⟨offset, offset⟩⟩

/-- Sorts a source text into tokens, comments and faults, with offsets of any
    size. -/
def lexWide (source : String) : Lexed :=
  let pieces := piecesOf source
  { tokens := pieces.filterMap Located.token? ++ [endOfFile (byteLength source.toList)]
    comments := pieces.filterMap Located.comment?
    faults := pieces.filterMap Located.fault? }

/-- A lexed text with its places as they are kept. -/
def Lexed.narrow (lexed : Lexed) : Lexed :=
  { tokens := lexed.tokens.map Located.narrow
    comments := lexed.comments.map Located.narrow
    faults := lexed.faults.map Located.narrow }

/-- Sorts a source text into tokens, comments and faults. -/
def lex (source : String) : Lexed := (lexWide source).narrow

/-- The reports of the faults of a lexed text. -/
def Lexed.diagnostics (lexed : Lexed) : List Diagnostic :=
  lexed.faults.map LexicalFault.diagnostic

end Mlog
