import Mlog.Expr
import Mlog.Token

/-! # The grammar as derivations

    Which lists of tokens are programs, and which tree each of them has, said
    without a parser.  For each kind of phrase there is a relation between
    the tokens of a phrase and its tree:

    ```
    program    := statement* EOF
    statement  := ('while' expr block | expr) ';'?
    block      := braces around statement*
    expr       := or '=' expr | or
    or         := and (('||' | 'or') and)*
    and        := equality (('&&' | 'and') equality)*
    equality   := comparison (('==' | '!=' | '===') comparison)*
    comparison := additive (('<' | '<=' | '>' | '>=') additive)*
    additive   := multiplicative (('+' | '-') multiplicative)*
    multiplicative := power (('*' | '/' | '%') power)*
    power      := unary ('**' power)?
    unary      := ('not' | '!') unary | '-' NUMBER | primary
    primary    := NUMBER | STRING | 'true' | 'false' | 'null'
                | '@' NAME ('.' '@'? NAME)?
                | NAME '(' arguments ')' | NAME '[' expr ']' | NAME '.' '@'? NAME | NAME
                | if | '(' expr ')'
                | 'case' expr braces around ('when' expr block)* ('else' block)?
    if         := 'if' expr block ('else' (block | if))?
    arguments  := (expr (',' expr)*)?
    ```

    The left side of an assignment must have a tree that can be assigned to.
    Repetitions are read from the left, so that the trees of the layers from
    `or` to `multiplicative` group to the left. -/

namespace Mlog

/-! ## Section 1: Layers of operators -/

/-- The layers of binary operators, the loosest first. -/
inductive Tier
  | or | and | equality | comparison | additive | multiplicative | power
deriving DecidableEq, Repr

namespace Tier

/-- The layer that an operand of a layer belongs to. -/
def tighter? : Tier → Option Tier
  | or => some and
  | and => some equality
  | equality => some comparison
  | comparison => some additive
  | additive => some multiplicative
  | multiplicative => some power
  | power => none

/-- The operators of a layer: their tokens and their names in trees. -/
def signs : Tier → List (Token × String)
  | or => [(.symbol .orOr, "||"), (.keyword .or_, "or")]
  | and => [(.symbol .andAnd, "&&"), (.keyword .and_, "and")]
  | equality => [(.symbol .equal, "=="), (.symbol .notEqual, "!="), (.symbol .strictEqual, "===")]
  | comparison =>
    [(.symbol .less, "<"), (.symbol .lessEqual, "<="), (.symbol .greater, ">"),
     (.symbol .greaterEqual, ">=")]
  | additive => [(.symbol .plus, "+"), (.symbol .minus, "-")]
  | multiplicative => [(.symbol .star, "*"), (.symbol .slash, "/"), (.symbol .percent, "%")]
  | power => [(.symbol .power, "**")]

end Tier

/-! ## Section 2: Assignments and properties -/

/-- The assignment of a value to what a tree stands for, if it can be assigned
    to.  A property is set by its name without the sign. -/
def Expr.assignTo? (target value : Expr) : Option Expr :=
  match target with
  | .var name => some (.assign name value)
  | .builtin name => some (.assignBuiltin name value)
  | .load cell address => some (.store cell address value)
  | .sensor block name =>
    some (.control (String.ofList (name.toList.dropWhile (· == '@'))) block value)
  | _ => none

namespace Derivation

/-- A property, with or without its sign; the tree has it with the sign. -/
inductive Property : List Token → String → Prop
  | bare (name) : Property [.ident name] ("@" ++ name)
  | signed (name) : Property [.symbol .atSign, .ident name] ("@" ++ name)

/-! ## Section 3: Phrases -/

mutual

/-- Statements one after another. -/
inductive Statements : List Token → List Expr → Prop
  | nil : Statements [] []
  | snoc {ts us es e} : Statements ts es → Statement us e → Statements (ts ++ us) (es ++ [e])

/-- A statement, with or without a semicolon. -/
inductive Statement : List Token → Expr → Prop
  | bare {ts e} : BareStatement ts e → Statement ts e
  | closed {ts e} : BareStatement ts e → Statement (ts ++ [.symbol .semicolon]) e

/-- A loop or an expression. -/
inductive BareStatement : List Token → Expr → Prop
  | loop {ts us cond body} : Expression ts cond → Block us body →
      BareStatement (.keyword .while_ :: ts ++ us) (.loop cond body)
  | expr {ts e} : Expression ts e → BareStatement ts e

/-- Statements between braces. -/
inductive Block : List Token → Expr → Prop
  | braces {ts es} : Statements ts es →
      Block (.symbol .lbrace :: ts ++ [.symbol .rbrace]) (Expr.ofStatements es)

/-- An assignment, or an operation. -/
inductive Expression : List Token → Expr → Prop
  | operation {ts e} : Operation .or ts e → Expression ts e
  | assignment {ts us target value e} : Operation .or ts target → Expression us value →
      target.assignTo? value = some e → Expression (ts ++ .symbol .assign :: us) e

/-- An operation of a layer, or of a tighter one.  Only `**` has the operand on
    its right in the same layer. -/
inductive Operation : Tier → List Token → Expr → Prop
  | tighter {tier tier' ts e} : tier.tighter? = some tier' → Operation tier' ts e →
      Operation tier ts e
  | left {tier tier' ts us left right sign op} : tier.tighter? = some tier' →
      Operation tier ts left → (sign, op) ∈ tier.signs → Operation tier' us right →
      Operation tier (ts ++ sign :: us) (.binary op left right)
  | operand {ts e} : Unary ts e → Operation .power ts e
  | power {ts us left right} : Unary ts left → Operation .power us right →
      Operation .power (ts ++ .symbol .power :: us) (.binary "**" left right)

/-- An operand of a binary operator. -/
inductive Unary : List Token → Expr → Prop
  | not {ts e} : Unary ts e → Unary (.keyword .not_ :: ts) (.unary "not" e)
  | bang {ts e} : Unary ts e → Unary (.symbol .bang :: ts) (.unary "!" e)
  | negative (text) : Unary [.symbol .minus, .number text] (.num ("-" ++ text))
  | primary {ts e} : Primary ts e → Unary ts e

/-- An expression without operators around its parts. -/
inductive Primary : List Token → Expr → Prop
  | number (text) : Primary [.number text] (.num text)
  | str (text) : Primary [.str text] (.str text)
  | true_ : Primary [.keyword .true_] (.bool true)
  | false_ : Primary [.keyword .false_] (.bool false)
  | null : Primary [.keyword .null_] .null
  | builtin (name) : Primary [.symbol .atSign, .ident name] (.builtin name)
  | builtinProperty {ts property} (name) : Property ts property →
      Primary (.symbol .atSign :: .ident name :: .symbol .dot :: ts)
        (.sensor ("@" ++ name) property)
  | call {ts args} (name) : Arguments ts args →
      Primary (.ident name :: .symbol .lparen :: ts ++ [.symbol .rparen]) (.call name args)
  | load {ts address} (name) : Expression ts address →
      Primary (.ident name :: .symbol .lbracket :: ts ++ [.symbol .rbracket]) (.load name address)
  | property {ts property} (name) : Property ts property →
      Primary (.ident name :: .symbol .dot :: ts) (.sensor name property)
  | var (name) : Primary [.ident name] (.var name)
  | branch {ts e} : Branch ts e → Primary ts e
  | parens {ts e} : Expression ts e →
      Primary (.symbol .lparen :: ts ++ [.symbol .rparen]) e
  | select {ts us vs subject arms other} : Expression ts subject → Arms us arms →
      Otherwise vs other →
      Primary (.keyword .case_ :: ts ++ .symbol .lbrace :: (us ++ vs) ++ [.symbol .rbrace])
        (.select subject arms other)

/-- An `if`. -/
inductive Branch : List Token → Expr → Prop
  | yes {ts us cond yes} : Expression ts cond → Block us yes →
      Branch (.keyword .if_ :: ts ++ us) (.branch cond yes .nop)
  | no {ts us vs cond yes no} : Expression ts cond → Block us yes → Block vs no →
      Branch (.keyword .if_ :: ts ++ us ++ .keyword .else_ :: vs) (.branch cond yes no)
  | elseIf {ts us vs cond yes no} : Expression ts cond → Block us yes → Branch vs no →
      Branch (.keyword .if_ :: ts ++ us ++ .keyword .else_ :: vs) (.branch cond yes no)

/-- The arguments of a call. -/
inductive Arguments : List Token → List Expr → Prop
  | none : Arguments [] []
  | some {ts args} : SomeArguments ts args → Arguments ts args

/-- One argument or more. -/
inductive SomeArguments : List Token → List Expr → Prop
  | one {ts e} : Expression ts e → SomeArguments ts [e]
  | snoc {ts us args e} : SomeArguments ts args → Expression us e →
      SomeArguments (ts ++ .symbol .comma :: us) (args ++ [e])

/-- The arms of a `case`. -/
inductive Arms : List Token → List (Expr × Expr) → Prop
  | nil : Arms [] []
  | snoc {ts us vs arms pattern body} : Arms ts arms → Expression us pattern → Block vs body →
      Arms (ts ++ .keyword .when_ :: (us ++ vs)) (arms ++ [(pattern, body)])

/-- The else part of a `case`. -/
inductive Otherwise : List Token → Expr → Prop
  | none : Otherwise [] .nop
  | some {ts e} : Block ts e → Otherwise (.keyword .else_ :: ts) e

end

/-- A whole program. -/
inductive Program : List Token → Expr → Prop
  | statements {ts es} : Statements ts es → Program (ts ++ [.eof]) (Expr.ofStatements es)

end Derivation

end Mlog
