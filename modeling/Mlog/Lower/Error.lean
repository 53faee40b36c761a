import Mlog.Expr.Text

/-! # What cannot be lowered

    A program can be well-formed and still have no instructions: a part whose
    value is needed may have none, and operators and functions may be
    unknown. -/

namespace Mlog

/-- A place in a tree where a value is needed. -/
inductive Role
  | operand (op : String)
  | leftOperand (op : String)
  | rightOperand (op : String)
  | assigned (name : String)
  | loadAddress (cell : String)
  | storeAddress (cell : String)
  | stored (cell : String)
  | controlled (target property : String)
  /-- An argument of a call, counted from one. -/
  | argument (position : Nat) (name : String)
  | branchCondition
  | branchYes
  | loopCondition
  | subject
  | pattern
  | armBody
deriving DecidableEq, Repr

/-- The words for a role. -/
def Role.description : Role → String
  | operand op => "operand of `" ++ op ++ "`"
  | leftOperand op => "left operand of `" ++ op ++ "`"
  | rightOperand op => "right operand of `" ++ op ++ "`"
  | assigned name => "right-hand side of assignment to `" ++ name ++ "`"
  | loadAddress cell => "address of read from `" ++ cell ++ "`"
  | storeAddress cell => "address of write to `" ++ cell ++ "`"
  | stored cell => "value written to `" ++ cell ++ "`"
  | controlled target property => "value of `" ++ target ++ "." ++ property ++ "`"
  | argument position name => "argument " ++ toString position ++ " of `" ++ name ++ "`"
  | branchCondition => "condition of `if`"
  | branchYes => "true branch of `if`"
  | loopCondition => "condition of `while`"
  | subject => "subject of `case`"
  | pattern => "`when` pattern of `case`"
  | armBody => "`when` branch of `case`"

/-- Why a tree cannot be lowered. -/
inductive LoweringError
  /-- A part that has to have a value has none. -/
  | noValue (role : Role) (part : Expr)
  | unknownBinary (op : String)
  | unknownUnary (op : String)
  | unknownFunction (name : String)
  | missingArguments (name : String) (required given : Nat)

/-- What is wrong. -/
def LoweringError.message : LoweringError → String
  | noValue role part =>
    "expected " ++ role.description ++ " to produce a value, found none in `" ++ part.text ++ "`"
  | unknownBinary op => "unsupported binary operator \"" ++ op ++ "\""
  | unknownUnary op => "unsupported unary operator \"" ++ op ++ "\""
  | unknownFunction name => "unsupported function call \"" ++ name ++ "\""
  | missingArguments name required given =>
    "function \"" ++ name ++ "\" expects " ++ toString required ++
      (if required = 1 then " argument" else " arguments") ++ ", found " ++ toString given

end Mlog
