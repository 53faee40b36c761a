import Mlog.Parse.State

/-! # The grammar

    ```
    program    := statement*
    statement  := ('while' expr block | expr) ';'?
    block      := braces around statement*
    expr       := binary ('=' expr)?
    binary     := unary (operator binary)*
    unary      := ('not' | '!') unary | '-' NUMBER | primary
    primary    := literal | '@' NAME ('.' property)? | NAME suffix
                | '(' expr ')' | 'if' expr block ('else' (if | block))?
                | 'case' expr braces around ('when' expr block)* ('else' block)?
    suffix     := '(' (expr (',' expr)*)? ')' | '[' expr ']' | '.' property | nothing
    property   := '@'? NAME
    ```

    An assignment can be made to a variable, a built-in, a memory cell or a
    property of a block.  How far a `binary` goes is settled by the binding
    powers of the operators.

    The rules are written for one level of nesting: whatever stands a level
    further in is read by the parsers of an `Inner`, which each rule gets as
    an argument.  `level n` is the tower of these rules `n` levels high, and
    at its bottom the parse is given up.  So the rules need no recursion
    besides that on the height of the tower, and no program can be nested
    more deeply than the tower is high. -/

namespace Mlog

/-- The parsers of what stands one nesting level further in. -/
structure Inner where
  /-- An expression. -/
  expr : Parse Expr
  /-- The statements of a block. -/
  statements : Parse (List Expr)
  /-- The right operand of an operator that holds it with the given power. -/
  rightOperand : Nat → Parse Expr
  /-- The operand of `not` or `!`. -/
  negated : Parse Expr
  /-- An `if` right after an `else`. -/
  elseIf : Parse Expr

namespace Grammar

open Parse

/-! ## Section 1: Blocks -/

/-- A block; an empty one is `nop`. -/
def block (inner : Inner) : Parse Expr := do
  expect (.symbol .lbrace)
  let body ← inner.statements
  expect (.symbol .rbrace)
  return Expr.ofStatements body

/-! ## Section 2: Primary expressions -/

/-- The name of a property, with or without `@`; it is read with it. -/
def property : Parse String := do
  discard (eat (.symbol .atSign))
  return "@" ++ (← expectName)

/-- What follows `@`: a built-in, or a property of one. -/
def builtin : Parse Expr := do
  let name ← expectName
  if ← eat (.symbol .dot) then
    return .sensor ("@" ++ name) (← property)
  else
    return .builtin name

/-- One more argument, if a comma follows; the latest one comes first. -/
def nextArgument (inner : Inner) (args : List Expr) : Parse (Option (List Expr)) := do
  if ← eat (.symbol .comma) then
    return some ((← inner.expr) :: args)
  else
    return none

/-- The arguments of a call, after the opening parenthesis. -/
def arguments (inner : Inner) : Parse (List Expr) := do
  if ← eat (.symbol .rparen) then
    return []
  else
    let first ← inner.expr
    let args ← iterate (nextArgument inner) [first]
    expect (.symbol .rparen)
    return args.reverse

/-- What follows a name: a call, the index of a memory cell, a property of a
    block, or nothing. -/
def suffix (inner : Inner) (name : String) : Parse Expr := do
  match ← peek with
  | .symbol .lparen =>
    advance
    return .call name (← arguments inner)
  | .symbol .lbracket =>
    advance
    let address ← inner.expr
    expect (.symbol .rbracket)
    return .load name address
  | .symbol .dot =>
    advance
    return .sensor name (← property)
  | _ => return .var name

/-- An `if`. -/
def branch (inner : Inner) : Parse Expr := do
  expect (.keyword .if_)
  let cond ← inner.expr
  let yes ← block inner
  if ← eat (.keyword .else_) then
    if (← peek) = .keyword .if_ then
      return .branch cond yes (← inner.elseIf)
    else
      return .branch cond yes (← block inner)
  else
    return .branch cond yes .nop

/-- One more arm of a `case`, if a `when` follows; the latest one comes
    first. -/
def nextArm (inner : Inner) (arms : List (Expr × Expr)) :
    Parse (Option (List (Expr × Expr))) := do
  skipComments
  if ← eat (.keyword .when_) then
    let pattern ← inner.expr
    let body ← block inner
    return some ((pattern, body) :: arms)
  else
    return none

/-- The else part of a `case`, if there is one. -/
def otherwise (inner : Inner) : Parse Expr := do
  if ← eat (.keyword .else_) then block inner else return .nop

/-- The end of a `case`. -/
def closeSelect : Parse Unit := do
  skipComments
  unless ← eat (.symbol .rbrace) do
    report (.expectedArm (← peek))

/-- A `case`. -/
def select (inner : Inner) : Parse Expr := do
  expect (.keyword .case_)
  let subject ← inner.expr
  expect (.symbol .lbrace)
  let arms ← iterate (nextArm inner) []
  let other ← otherwise inner
  closeSelect
  return .select subject arms.reverse other

/-- A primary expression.  Where none starts, a fault is noted and the token
    is passed, but for a closing brace, which belongs to the block around,
    and a `while`, which starts the next statement. -/
def primary (inner : Inner) : Parse Expr := do
  match ← peek with
  | .number text => advance; return .num text
  | .str text => advance; return .str text
  | .keyword .true_ => advance; return .bool true
  | .keyword .false_ => advance; return .bool false
  | .keyword .null_ => advance; return .null
  | .symbol .atSign => advance; builtin
  | .ident name => advance; suffix inner name
  | .keyword .if_ => branch inner
  | .keyword .case_ => select inner
  | .symbol .lparen =>
    advance
    let e ← inner.expr
    expect (.symbol .rparen)
    return e
  -- neither of the next two is passed
  | .keyword .while_ => report .loopAsValue; return .null
  | .symbol .rbrace => report (.expectedExpression (.symbol .rbrace)); return .null
  | found => report (.expectedExpression found); advance; return .null

/-! ## Section 3: Operators -/

/-- A primary expression, or the negation of a truth value. -/
def negation (inner : Inner) : Parse Expr := do
  match ← peek with
  | .keyword .not_ => advance; return .unary "not" (← inner.negated)
  | .symbol .bang => advance; return .unary "!" (← inner.negated)
  | _ => primary inner

/-- An operand of a binary operator.  A minus sign is part of a number; before
    anything else it is a fault, and a run of them is one fault. -/
def unary (inner : Inner) : Parse Expr := do
  if (← peek) = .symbol .minus then
    let start ← here
    advance
    match ← peek with
    | .number text => advance; return .num ("-" ++ text)
    | _ =>
      reportAt .negation start
      -- the signs after the first are no faults of their own
      modify (·.skipAll (.symbol .minus))
      negation inner
  else
    negation inner

/-- One more operation on `left`, if an operator follows that holds it with at
    least the given power. -/
def nextOperation (inner : Inner) (power : Nat) (left : Expr) : Parse (Option Expr) := do
  match (← peek).binaryOperator? with
  | some (op, binding) =>
    if binding.left < power then
      return none
    else
      advance
      return some (.binary op left (← inner.rightOperand binding.right))
  | none => return none

/-- An operand and the operations on it whose operators hold it with at least
    the given power. -/
def binary (inner : Inner) (power : Nat) : Parse Expr := do
  iterate (nextOperation inner power) (← unary inner)

/-! ## Section 4: Assignments -/

/-- Assigns a value to what an expression stands for; `span` is the place of
    the left side and the sign. -/
def assign (target : Expr) (span : Span) (value : Expr) : Parse Expr := do
  match target with
  | .var name => return .assign name value
  | .builtin name => return .assignBuiltin name value
  | .load cell address => return .store cell address value
  | .sensor block name =>
    return .control (String.ofList (name.toList.dropWhile (· == '@'))) block value
  | _ =>
    reportAt (.badTarget target) span
    return value

/-- The left sides of a chain of assignments, each with the place of it and
    the sign after it, the latest one first; then the expression after the
    last sign and where it starts. -/
structure Chain where
  targets : List (Expr × Span)
  start : Span
  last : Expr

/-- The expression that a chain can begin or go on with. -/
def link (inner : Inner) (targets : List (Expr × Span)) : Parse Chain := do
  let start ← here
  return ⟨targets, start, ← binary inner 0⟩

/-- One more assignment, if its sign follows. -/
def nextAssignment (inner : Inner) (chain : Chain) : Parse (Option Chain) := do
  if (← peek) = .symbol .assign then
    let span := chain.start.merge (← here)
    advance
    return some (← link inner ((chain.last, span) :: chain.targets))
  else
    return none

/-- An assignment, or an expression that is none.  A chain of assignments
    groups to the right. -/
def assignment (inner : Inner) : Parse Expr := do
  let chain ← iterate (nextAssignment inner) (← link inner [])
  chain.targets.foldlM (fun value target => assign target.1 target.2 value) chain.last

/-! ## Section 5: Statements -/

/-- A `while`. -/
def loop (inner : Inner) : Parse Expr := do
  expect (.keyword .while_)
  let cond ← inner.expr
  return .loop cond (← block inner)

/-- A statement without the semicolon after it. -/
def bareStatement (inner : Inner) : Parse Expr := do
  if (← peek) = .keyword .while_ then loop inner else inner.expr

/-- A statement, with the semicolon after it if there is one. -/
def statement (inner : Inner) : Parse Expr := do
  let e ← bareStatement inner
  discard (eat (.symbol .semicolon))
  return e

/-- Moves past a token if none has been passed since so many were ahead. -/
def recover (ahead : Nat) : Parse Unit :=
  modify fun s => if s.ahead.length = ahead then s.advance else s

/-- One more statement, unless the closing token or the end of the file
    follows; the latest one comes first.  The comments before a statement are
    statements of their own. -/
def nextStatement (inner : Inner) (closing : Token) (stmts : List Expr) :
    Parse (Option (List Expr)) := do
  let token ← peek
  if token = closing ∨ token = .eof then
    skipComments
    return none
  else
    let comments ← takeComments
    let ahead := (← get).ahead.length
    let e ← statement inner
    -- a faulty statement may read nothing at all
    recover ahead
    return some (e :: (comments.map fun c => Expr.comment c.value).reverse ++ stmts)

/-- The statements up to a closing token or the end of the file.  Comments
    after the last one are dropped, so that the value of a block is that of
    its last statement. -/
def statements (inner : Inner) (closing : Token) : Parse (List Expr) := do
  return (← iterate (nextStatement inner closing) []).reverse

/-! ## Section 6: The tower -/

/-- Gives the parse up. -/
def giveUp {α : Type} (a : α) : Parse α := do
  modify ParseState.abort
  return a

/-- The parsers of what stands `n` levels below the nesting limit. -/
def level : Nat → Inner
  | 0 =>
    { expr := giveUp .nop
      statements := giveUp []
      rightOperand := fun _ => giveUp .nop
      negated := giveUp .nop
      elseIf := giveUp .nop }
  | n + 1 =>
    let inner := level n
    { expr := assignment inner
      statements := statements inner (.symbol .rbrace)
      rightOperand := binary inner
      negated := unary inner
      elseIf := branch inner }

/-- A whole program. -/
def program : Parse (List Expr) := statements (level nestingLimit) .eof

end Grammar

/-! ## Section 7: Parsing -/

/-- The program that a list of tokens is, or the faults in it in the order
    they were found. -/
def parse (tokens : List (Located Token)) (comments : List Comment) :
    Except (List (Located SyntaxFault)) Expr :=
  let (stmts, s) := Grammar.program (ParseState.start tokens comments)
  if s.faults.isEmpty then .ok (Expr.ofStatements stmts) else .error s.faults.reverse

end Mlog
