import Mlog.Lower.Intrinsic
import Mlog.Lower.Operation
import Mlog.Text.Quoted

/-! # Lowering trees to instructions

    One pass over the tree.  The parts are lowered in the order in which they
    are evaluated, from left to right, and their code is put together in that
    order.  The temporary variable and the labels of a part are named after
    those of the parts inside it, so inner parts have the lower numbers.

    A value is held by a temporary variable, or by a variable, built-in or
    constant that the program itself names; only comments, `nop`, and what
    ends in them have no value. -/

namespace Mlog

open Lowering

mutual

/-- The code of a tree. -/
def lower : Expr → Lowering Fragment
  | .null => pure (.constant "null")
  | .bool value => pure (.constant (if value then "true" else "false"))
  | .num literal => do
    let result ← freshTemp
    return ⟨some result, [.set result literal]⟩
  | .str text => do
    let result ← freshTemp
    return ⟨some result, [.set result (Text.quoted text)]⟩
  | .var name => pure (.constant name)
  | .builtin name => pure (.constant ("@" ++ name))
  | .seq rest last => do
    let rest ← lower rest
    let last ← lower last
    return ⟨last.value, rest.code ++ last.code⟩
  | .branch cond yes no => do
    let cond ← needValue .branchCondition cond (← lower cond)
    let yes ← needValue .branchYes yes (← lower yes)
    let no ← lower no
    -- named last, so that the parts inside have the lower numbers
    let result ← freshTemp
    let elseLabel ← freshLabel
    let endLabel ← freshLabel
    return ⟨some result, branchCode cond yes no result elseLabel endLabel⟩
  | .loop cond body => do
    let cond ← needValue .loopCondition cond (← lower cond)
    let body ← lower body
    let condLabel ← freshLabel
    let doneLabel ← freshLabel
    return ⟨body.value, loopCode cond body condLabel doneLabel⟩
  | .select subject arms otherwise => do
    let subject ← needValue .subject subject (← lower subject)
    let arms ← lowerArms arms
    let otherwise ← lower otherwise
    let result ← freshTemp
    let nextLabels ← freshLabels arms.length
    let endLabel ← freshLabel
    return ⟨some result, selectCode subject arms otherwise result nextLabels endLabel⟩
  | .assign name value => do
    let value ← needValue (.assigned name) value (← lower value)
    return ⟨some value.value, value.code ++ [.set name value.value]⟩
  -- the game owns its built-ins: the value is computed and nothing is set
  | .assignBuiltin name value => do
    let value ← lower value
    return ⟨some ("@" ++ name), value.code⟩
  | .load cell address => do
    let address ← needValue (.loadAddress cell) address (← lower address)
    let result ← freshTemp
    return ⟨some result, address.code ++ [.read result cell address.value]⟩
  | .store cell address value => do
    let address ← needValue (.storeAddress cell) address (← lower address)
    let value ← needValue (.stored cell) value (← lower value)
    return ⟨some value.value,
      address.code ++ value.code ++ [.write value.value cell address.value]⟩
  | .control property target value => do
    let value ← needValue (.controlled target property) value (← lower value)
    return ⟨some value.value, value.code ++ [.control property target value.value]⟩
  | .sensor target name => do
    let result ← freshTemp
    return ⟨some result, [.sensor result target name]⟩
  | .unary op operand => do
    let operand ← needValue (.operand op) operand (← lower operand)
    match unaryOperation? op with
    | none => throw (.unknownUnary op)
    | some operation =>
      let result ← freshTemp
      return ⟨some result, operand.code ++ [.op operation result [operand.value]]⟩
  | .binary op left right => do
    let left ← needValue (.leftOperand op) left (← lower left)
    let right ← needValue (.rightOperand op) right (← lower right)
    match binaryOperation? op with
    | none => throw (.unknownBinary op)
    | some operation =>
      let result ← freshTemp
      return ⟨some result,
        left.code ++ right.code ++ [.op operation result [left.value, right.value]]⟩
  | .call name args => do
    let args ← lowerArgs name 1 args
    let call ← expandCall name (args.map Valued.value)
    return ⟨some call.value, args.flatMap Valued.code ++ call.code⟩
  | .comment _ => pure .empty
  | .nop => pure .empty

/-- The code of the arguments of a call, the first of them at a position. -/
def lowerArgs (name : String) (position : Nat) : List Expr → Lowering (List Valued)
  | [] => pure []
  | arg :: args => do
    let first ← needValue (.argument position name) arg (← lower arg)
    let others ← lowerArgs name (position + 1) args
    return first :: others

/-- The code of the patterns and the bodies of the arms of a `case`. -/
def lowerArms : List (Expr × Expr) → Lowering (List (Valued × Valued))
  | [] => pure []
  | (pattern, body) :: arms => do
    let first ← needValue .pattern pattern (← lower pattern)
    let second ← needValue .armBody body (← lower body)
    let others ← lowerArms arms
    return (first, second) :: others

end

/-- The instructions of a whole program, with the final `end`. -/
def generate (program : Expr) : Except LoweringError (List Instruction) :=
  ((lower program).runFrom Names.none).1.map fun f => f.code ++ [.end_]

end Mlog
