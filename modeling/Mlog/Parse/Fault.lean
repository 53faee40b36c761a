import Mlog.Expr.Text
import Mlog.Source.Diagnostic
import Mlog.Token

/-! # Faults in the order of tokens

    What can be wrong with a token list, and the words for it. -/

namespace Mlog

/-- Why a token list is no program. -/
inductive SyntaxFault
  /-- One particular token was needed. -/
  | expected (wanted found : Token)
  | expectedName (found : Token)
  | expectedExpression (found : Token)
  /-- A `while` where a value is needed. -/
  | loopAsValue
  /-- A `case` goes on with something that is neither an arm nor its end. -/
  | expectedArm (found : Token)
  /-- The left side of an assignment is nothing that can be assigned to. -/
  | badTarget (target : Expr)
  /-- A minus sign before something that is no number. -/
  | negation
  /-- The nesting of the program is too deep. -/
  | tooDeep

/-- How many levels deep a program may be nested. -/
def nestingLimit : Nat := 256

namespace SyntaxFault

/-- What is wrong. -/
def message : SyntaxFault → String
  | expected wanted found => "expected " ++ wanted.description ++ ", found " ++ found.description
  | expectedName found => "expected identifier, found " ++ found.description
  | expectedExpression found => "expected expression, found " ++ found.description
  | loopAsValue => "expected expression, found " ++ (Token.keyword .while_).description
  | expectedArm found =>
    "expected 'when', 'else' or '\x7d' in case, found " ++ found.description
  | badTarget target => "invalid assignment target `" ++ target.text ++ "`"
  | negation => "unary '-' applies only to number literals"
  | tooDeep => "nesting depth exceeded (maximum " ++ toString nestingLimit ++ " levels)"

/-- What the author can do about it. -/
def help? : SyntaxFault → Option String
  | loopAsValue => some "`while` loops are statements and produce no value here"
  | expectedArm _ => some "each alternative is written `when value \x7b ... \x7d`"
  | badTarget _ => some "assign to a variable, `@name`, `cell[index]` or `block.property`"
  | negation => some "write `0 - x` to negate an expression"
  | tooDeep =>
    some "simplify the program by splitting deeply nested expressions into assignments"
  | _ => none

/-- The report of a fault. -/
def diagnostic (fault : Located SyntaxFault) : Diagnostic :=
  { Diagnostic.located fault.value.message fault.span with help := fault.value.help? }

end SyntaxFault

end Mlog
