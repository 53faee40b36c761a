/-! # Operators of the source and operations of the target -/

namespace Mlog

/-- The operation that a binary operator stands for.  Both spellings of the
    logical operators do; `and` of the target works bit by bit, so the logical
    one is `land`. -/
def binaryOperation? : String → Option String
  | "+" => some "add"
  | "-" => some "sub"
  | "*" => some "mul"
  | "/" => some "div"
  | "**" => some "pow"
  | "==" => some "equal"
  | "!=" => some "notEqual"
  | "===" => some "strictEqual"
  | "<" => some "lessThan"
  | "<=" => some "lessThanEq"
  | ">" => some "greaterThan"
  | ">=" => some "greaterThanEq"
  | "||" => some "or"
  | "or" => some "or"
  | "&&" => some "land"
  | "and" => some "land"
  | _ => none

/-- The operation that a unary operator stands for. -/
def unaryOperation? : String → Option String
  | "not" => some "not"
  | "!" => some "not"
  | _ => none

end Mlog
