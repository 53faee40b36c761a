import Mlog.Expr
import Mlog.Text.Alphabetic

/-! # Trees in one line

    The text of a tree for people to read, close to the source text it can
    have come from.  Binary operations stand in parentheses; an else part is
    written unless it is `nop`. -/

namespace Mlog.Expr

/-- A text between braces, with a space on each side. -/
def braced (text : String) : String := "\x7b " ++ text ++ " \x7d"

/-- An operator that is a word is set off from its operand by a space. -/
def operatorGap (op : String) : String := if Text.isWord op then " " else ""

/-- An else part with a given text; nothing at all for `nop`. -/
def elseText : Expr → String → String
  | nop, _ => ""
  | _, shown => " else " ++ braced shown

mutual

/-- The text of a tree. -/
def text : Expr → String
  | null => "null"
  | bool value => if value then "true" else "false"
  | num literal => literal
  | str contents => "\"" ++ contents ++ "\""
  | var name => name
  | builtin name => "@" ++ name
  | seq rest last => rest.text ++ "; " ++ last.text
  | branch cond yes no => "if " ++ cond.text ++ " " ++ braced yes.text ++ elseText no no.text
  | loop cond body => "while " ++ cond.text ++ " " ++ braced body.text
  | select subject arms otherwise =>
    "case " ++ subject.text ++ " \x7b" ++ armsText arms ++
    elseText otherwise otherwise.text ++ " \x7d"
  | assign name value => name ++ " = " ++ value.text
  | assignBuiltin name value => "@" ++ name ++ " = " ++ value.text
  | load cell address => cell ++ "[" ++ address.text ++ "]"
  | store cell address value => cell ++ "[" ++ address.text ++ "] = " ++ value.text
  | control property target value => target ++ "." ++ property ++ " = " ++ value.text
  | sensor target name => target ++ "." ++ name
  | unary op operand => op ++ operatorGap op ++ operand.text
  | binary op left right => "(" ++ left.text ++ " " ++ op ++ " " ++ right.text ++ ")"
  | call name args => name ++ "(" ++ argsText args ++ ")"
  | comment words => "// " ++ words
  | nop => "<no-op>"

/-- The texts of arguments, with commas between. -/
def argsText : List Expr → String
  | [] => ""
  | [arg] => arg.text
  | arg :: args => arg.text ++ ", " ++ argsText args

/-- The texts of the arms of a `case`, each with a space before it. -/
def armsText : List (Expr × Expr) → String
  | [] => ""
  | (pattern, body) :: arms =>
    " when " ++ pattern.text ++ " " ++ braced body.text ++ armsText arms

end

instance : ToString Expr := ⟨text⟩

end Mlog.Expr
