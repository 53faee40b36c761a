/-! # Tokens

    The vocabulary of Mindcode: keywords, symbols, literals and names, with
    the spelling of each, the words used for it in messages, and the binary
    operators among them with their binding powers. -/

namespace Mlog

/-! ## Section 1: Keywords -/

/-- The reserved words. -/
inductive Keyword
  | if_ | else_ | while_ | case_ | when_ | true_ | false_ | null_ | and_ | or_ | not_
deriving DecidableEq, Repr

namespace Keyword

/-- How a keyword is written. -/
def spelling : Keyword → String
  | if_ => "if"
  | else_ => "else"
  | while_ => "while"
  | case_ => "case"
  | when_ => "when"
  | true_ => "true"
  | false_ => "false"
  | null_ => "null"
  | and_ => "and"
  | or_ => "or"
  | not_ => "not"

/-- All keywords. -/
def all : List Keyword :=
  [if_, else_, while_, case_, when_, true_, false_, null_, and_, or_, not_]

/-- The keyword with a given spelling. -/
def ofSpelling? (s : String) : Option Keyword := all.find? (·.spelling = s)

theorem mem_all (k : Keyword) : k ∈ all := by cases k <;> decide

theorem ofSpelling?_spelling (k : Keyword) : ofSpelling? k.spelling = some k := by
  cases k <;> decide

end Keyword

/-! ## Section 2: Symbols -/

/-- Brackets, separators and operator signs. -/
inductive Symbol
  | lparen | rparen | lbrace | rbrace | lbracket | rbracket
  | comma | semicolon | dot | atSign
  | assign | equal | strictEqual | notEqual | bang
  | less | lessEqual | greater | greaterEqual
  | plus | minus | star | power | slash | percent
  | andAnd | orOr
deriving DecidableEq, Repr

namespace Symbol

/-- The characters of a symbol. -/
def chars : Symbol → List Char
  | lparen => ['(']
  | rparen => [')']
  | lbrace => ['\x7b']
  | rbrace => ['\x7d']
  | lbracket => ['[']
  | rbracket => [']']
  | comma => [',']
  | semicolon => [';']
  | dot => ['.']
  | atSign => ['@']
  | assign => ['=']
  | equal => ['=', '=']
  | strictEqual => ['=', '=', '=']
  | notEqual => ['!', '=']
  | bang => ['!']
  | less => ['<']
  | lessEqual => ['<', '=']
  | greater => ['>']
  | greaterEqual => ['>', '=']
  | plus => ['+']
  | minus => ['-']
  | star => ['*']
  | power => ['*', '*']
  | slash => ['/']
  | percent => ['%']
  | andAnd => ['&', '&']
  | orOr => ['|', '|']

/-- How a symbol is written. -/
def spelling (s : Symbol) : String := String.ofList s.chars

/-- All symbols, longer spellings first. -/
def all : List Symbol :=
  [strictEqual,
   equal, notEqual, lessEqual, greaterEqual, power, andAnd, orOr,
   lparen, rparen, lbrace, rbrace, lbracket, rbracket, comma, semicolon, dot, atSign,
   assign, bang, less, greater, plus, minus, star, slash, percent]

/-- The longest symbol that a text starts with. -/
def longest? (text : List Char) : Option Symbol :=
  all.find? (·.chars.isPrefixOf text)

theorem mem_all (s : Symbol) : s ∈ all := by cases s <;> decide

theorem longest?_chars (s : Symbol) : longest? s.chars = some s := by
  cases s <;> decide

end Symbol

/-! ## Section 3: Tokens -/

/-- One word of a program. -/
inductive Token
  | keyword (word : Keyword)
  | symbol (sign : Symbol)
  /-- A number as it was written, such as `42` or `0.5`. -/
  | number (text : String)
  /-- The text that a string literal stands for. -/
  | str (text : String)
  | ident (name : String)
  /-- The end of the source text. -/
  | eof
deriving DecidableEq, Repr

namespace Token

/-- The words for a token in a message. -/
def description : Token → String
  | keyword k => "'" ++ k.spelling ++ "'"
  | symbol s => "'" ++ s.spelling ++ "'"
  | number _ => "number literal"
  | str _ => "string literal"
  | ident _ => "identifier"
  | eof => "end of file"

end Token

/-! ## Section 4: Binary operators -/

/-- How tightly an operator holds its operands, on each side.  Of two
    operators around one operand the one that holds it tighter takes it. -/
structure Binding where
  left : Nat
  right : Nat
deriving DecidableEq, Repr

/-- The binary operator that a token stands for, as written, and how tightly
    it binds; loosest first.  Only `**` associates to the right. -/
def Token.binaryOperator? : Token → Option (String × Binding)
  | keyword .or_ => some (Keyword.or_.spelling, ⟨2, 3⟩)
  | symbol .orOr => some (Symbol.orOr.spelling, ⟨2, 3⟩)
  | keyword .and_ => some (Keyword.and_.spelling, ⟨4, 5⟩)
  | symbol .andAnd => some (Symbol.andAnd.spelling, ⟨4, 5⟩)
  | symbol .equal => some (Symbol.equal.spelling, ⟨6, 7⟩)
  | symbol .notEqual => some (Symbol.notEqual.spelling, ⟨6, 7⟩)
  | symbol .strictEqual => some (Symbol.strictEqual.spelling, ⟨6, 7⟩)
  | symbol .less => some (Symbol.less.spelling, ⟨8, 9⟩)
  | symbol .lessEqual => some (Symbol.lessEqual.spelling, ⟨8, 9⟩)
  | symbol .greater => some (Symbol.greater.spelling, ⟨8, 9⟩)
  | symbol .greaterEqual => some (Symbol.greaterEqual.spelling, ⟨8, 9⟩)
  | symbol .plus => some (Symbol.plus.spelling, ⟨10, 11⟩)
  | symbol .minus => some (Symbol.minus.spelling, ⟨10, 11⟩)
  | symbol .star => some (Symbol.star.spelling, ⟨12, 13⟩)
  | symbol .slash => some (Symbol.slash.spelling, ⟨12, 13⟩)
  | symbol .percent => some (Symbol.percent.spelling, ⟨12, 13⟩)
  | symbol .power => some (Symbol.power.spelling, ⟨15, 14⟩)
  | _ => none

end Mlog
