import Mlog.Expr.Text
import Mlog.Proofs.Derivation
import Mlog.Proofs.Spelling

/-! # Trees that can be printed and read back

    The text of a tree leaves some things out: statements stand between
    semicolons without braces, an absent else part is not written, and an
    assignment has no parentheses.  So a tree is printable only if each part
    of it stands at a place that its text fits.

    With it come the tokens that the text of a printable tree is cut into
    (`tokens`) and the number of levels that a parser of them needs
    (`nesting`). -/

namespace Mlog

/-! ## Section 1: Places -/

/-- Where a part of a tree can stand.  What can stand at one place can stand at
    all later ones. -/
inductive Place
  /-- Next to an operator. -/
  | operand
  /-- Where a value is asked for. -/
  | value
  /-- As one statement. -/
  | statement
  /-- Between braces, or as a whole program. -/
  | block
  /-- After an `else` that may be absent. -/
  | elsePart
deriving DecidableEq, Repr

namespace Place

/-- The number of places before a place. -/
def rank : Place → Nat
  | operand => 0
  | value => 1
  | statement => 2
  | block => 3
  | elsePart => 4

instance : LE Place := ⟨fun a b => a.rank ≤ b.rank⟩

instance (a b : Place) : Decidable (a ≤ b) := inferInstanceAs (Decidable (a.rank ≤ b.rank))

theorem le_iff {a b : Place} : a ≤ b ↔ a.rank ≤ b.rank := Iff.rfl

end Place

/-! ## Section 2: Printable trees -/

/-- The token of a unary operator. -/
def negationToken? (op : String) : Option Token :=
  if op = "not" then some (.keyword .not_) else if op = "!" then some (.symbol .bang) else none

theorem negationToken?_cases {op : String} (h : (negationToken? op).isSome = true) :
    op = "not" ∨ op = "!" := by
  unfold negationToken? at h
  split at h
  · exact .inl ‹_›
  · split at h
    · exact .inr ‹_›
    · exact absurd h (by simp)

/-- The binary operators: their tokens and their names in trees. -/
def binaryOperators : List (Token × String) :=
  [Tier.or, .and, .equality, .comparison, .additive, .multiplicative, .power].flatMap Tier.signs

/-- The token of a binary operator. -/
def operationToken? (op : String) : Option Token :=
  (binaryOperators.find? (·.2 == op)).map Prod.fst

/-- The name of a block or of a built-in. -/
def isReference (s : String) : Bool := Text.isName s || Text.isSigned s

namespace Expr

mutual

/-- Can a tree be printed at a place and be read back? -/
def printableAt : Expr → Place → Bool
  | null, _ => true
  | bool _, _ => true
  | num literal, _ => Text.isNumber literal
  | str contents, _ => Text.isPlain contents
  | var name, _ => Text.isName name
  | builtin name, _ => Text.isName name
  | seq rest last, place =>
    decide (.block ≤ place) && rest.printableAt .block && last.printableAt .statement
  | branch cond yes no, _ =>
    cond.printableAt .value && yes.printableAt .block && no.printableAt .elsePart
  | loop cond body, place =>
    decide (.statement ≤ place) && cond.printableAt .value && body.printableAt .block
  | select subject arms otherwise, _ =>
    subject.printableAt .value && armsPrintable arms && otherwise.printableAt .elsePart
  | assign name value, place =>
    decide (.value ≤ place) && Text.isName name && value.printableAt .value
  | assignBuiltin name value, place =>
    decide (.value ≤ place) && Text.isName name && value.printableAt .value
  | load cell address, _ => Text.isName cell && address.printableAt .value
  | store cell address value, place =>
    decide (.value ≤ place) && Text.isName cell && address.printableAt .value &&
    value.printableAt .value
  | control property target value, place =>
    decide (.value ≤ place) && Text.isName property && isReference target &&
    value.printableAt .value
  | sensor target name, _ => isReference target && Text.isSigned name
  | unary op operand, _ => (negationToken? op).isSome && operand.printableAt .operand
  | binary op left right, _ =>
    (operationToken? op).isSome && left.printableAt .operand && right.printableAt .operand
  | call name args, _ => Text.isName name && argsPrintable args
  | comment _, _ => false
  | nop, place => decide (.elsePart ≤ place)

/-- Are all arguments printable? -/
def argsPrintable : List Expr → Bool
  | [] => true
  | arg :: args => arg.printableAt .value && argsPrintable args

/-- Are all arms of a `case` printable? -/
def armsPrintable : List (Expr × Expr) → Bool
  | [] => true
  | (pattern, body) :: arms =>
    pattern.printableAt .value && body.printableAt .block && armsPrintable arms

end

/-- Can a tree be printed as a program and be read back? -/
def printable (e : Expr) : Bool := e.printableAt .block

/-- The first place that trees of a form can stand at. -/
def home : Expr → Place
  | seq .. => .block
  | loop .. => .statement
  | assign .. | assignBuiltin .. | store .. | control .. => .value
  | nop => .elsePart
  | _ => .operand

/-- A tree stands at the first place for its form, or at a later one. -/
theorem home_le {e : Expr} {place : Place} (h : e.printableAt place = true) : e.home ≤ place := by
  cases e with
  | seq | loop | assign | assignBuiltin | store | control | nop =>
    simp only [printableAt, Bool.and_eq_true, decide_eq_true_eq] at h
    simp only [home, h]
  | _ => exact Nat.zero_le _

theorem printableAt_of_home_le {e : Expr} {place place' : Place} (h : e.printableAt place = true)
    (hle : e.home ≤ place') : e.printableAt place' = true := by
  cases e with
  | seq | loop | assign | assignBuiltin | store | control | nop =>
    simp only [home] at hle
    simp_all [printableAt]
  | _ => exact h

/-- An else part is absent, or a block. -/
theorem elsePart_cases {e : Expr} (h : e.printableAt .elsePart = true) :
    e = nop ∨ e.printableAt .block = true := by
  cases e with
  | nop => exact .inl rfl
  | _ => exact .inr (printableAt_of_home_le h (by simp [home, Place.le_iff, Place.rank]))

theorem printableAt_of_mem_args {args : List Expr} (h : argsPrintable args = true) {arg : Expr}
    (harg : arg ∈ args) : arg.printableAt .value = true := by
  induction args with
  | nil => exact absurd harg List.not_mem_nil
  | cons first args ih =>
    simp only [argsPrintable, Bool.and_eq_true] at h
    rcases List.mem_cons.mp harg with rfl | harg
    · exact h.1
    · exact ih h.2 harg

theorem printableAt_of_mem_arms {arms : List (Expr × Expr)} (h : armsPrintable arms = true)
    {arm : Expr × Expr} (harm : arm ∈ arms) :
    arm.1.printableAt .value = true ∧ arm.2.printableAt .block = true := by
  induction arms with
  | nil => exact absurd harm List.not_mem_nil
  | cons first arms ih =>
    simp only [armsPrintable, Bool.and_eq_true] at h
    rcases List.mem_cons.mp harm with rfl | harm
    · exact h.1
    · exact ih h.2 harm

/-! ## Section 3: Tokens -/

/-- The tokens of a number. -/
def numberTokens (literal : String) : List Token :=
  match literal.toList with
  | '-' :: cs => [.symbol .minus, .number (String.ofList cs)]
  | _ => [.number literal]

/-- The tokens of the name of a block, or of a built-in with its sign. -/
def referenceTokens (name : String) : List Token :=
  match name.toList with
  | '@' :: cs => [.symbol .atSign, .ident (String.ofList cs)]
  | _ => [.ident name]

theorem numberTokens_cases {literal : String} (h : Text.isNumber literal = true) :
    (∃ cs, literal = "-" ++ String.ofList cs ∧ Text.isNumeral cs = true ∧
        numberTokens literal = [.symbol .minus, .number (String.ofList cs)]) ∨
      Text.isNumeral literal.toList = true ∧ numberTokens literal = [.number literal] := by
  rcases Text.isNumber_cases h with ⟨cs, hs, hnumeral⟩ | hnumeral
  · exact .inl ⟨cs, by simp [← String.toList_inj, hs], hnumeral, by simp [numberTokens, hs]⟩
  · refine .inr ⟨hnumeral, ?_⟩
    unfold numberTokens
    split
    · rename_i cs hs
      rw [hs] at hnumeral
      exact absurd (Text.isDigit_of_isNumeral hnumeral) (by decide)
    · rfl

theorem referenceTokens_signed (name : String) :
    referenceTokens ("@" ++ name) = [.symbol .atSign, .ident name] := by
  simp [referenceTokens]

theorem referenceTokens_cases {s : String} (h : isReference s = true) :
    (Text.isName s = true ∧ referenceTokens s = [.ident s]) ∨
      ∃ name, s = "@" ++ name ∧ Text.isName name = true ∧
        referenceTokens s = [.symbol .atSign, .ident name] := by
  rcases Bool.or_eq_true_iff.mp h with hname | hsigned
  · obtain ⟨c, cs, hs, hstart, _⟩ := Text.isName_cases hname
    have hsign : c ≠ '@' := by
      rintro rfl
      exact absurd hstart (by decide)
    exact .inl ⟨hname, by simp [referenceTokens, hs, hsign]⟩
  · obtain ⟨name, rfl, hname⟩ := Text.isSigned_cases hsigned
    exact .inr ⟨name, rfl, hname, referenceTokens_signed name⟩

/-- Tokens between braces. -/
def bracedTokens (ts : List Token) : List Token :=
  .symbol .lbrace :: ts ++ [.symbol .rbrace]

/-- The tokens of an else part with given tokens. -/
def elseTokens : Expr → List Token → List Token
  | nop, _ => []
  | _, ts => .keyword .else_ :: bracedTokens ts

mutual

/-- The tokens that the text of a printable tree is cut into. -/
def tokens : Expr → List Token
  | null => [.keyword .null_]
  | bool value => [.keyword (if value then .true_ else .false_)]
  | num literal => numberTokens literal
  | str contents => [.str contents]
  | var name => [.ident name]
  | builtin name => [.symbol .atSign, .ident name]
  | seq rest last => rest.tokens ++ .symbol .semicolon :: last.tokens
  | branch cond yes no =>
    .keyword .if_ :: cond.tokens ++ bracedTokens yes.tokens ++ elseTokens no no.tokens
  | loop cond body => .keyword .while_ :: cond.tokens ++ bracedTokens body.tokens
  | select subject arms otherwise =>
    .keyword .case_ :: subject.tokens ++
    bracedTokens (armsTokens arms ++ elseTokens otherwise otherwise.tokens)
  | assign name value => .ident name :: .symbol .assign :: value.tokens
  | assignBuiltin name value =>
    .symbol .atSign :: .ident name :: .symbol .assign :: value.tokens
  | load cell address => .ident cell :: .symbol .lbracket :: address.tokens ++ [.symbol .rbracket]
  | store cell address value =>
    .ident cell :: .symbol .lbracket :: address.tokens ++
    .symbol .rbracket :: .symbol .assign :: value.tokens
  | control property target value =>
    referenceTokens target ++ .symbol .dot :: .ident property :: .symbol .assign :: value.tokens
  | sensor target name => referenceTokens target ++ .symbol .dot :: referenceTokens name
  | unary op operand => (negationToken? op).toList ++ operand.tokens
  | binary op left right =>
    .symbol .lparen :: left.tokens ++ (operationToken? op).toList ++ right.tokens ++
    [.symbol .rparen]
  | call name args => .ident name :: .symbol .lparen :: argsTokens args ++ [.symbol .rparen]
  | comment _ => []
  | nop => []

/-- The tokens of arguments, with commas between. -/
def argsTokens : List Expr → List Token
  | [] => []
  | [arg] => arg.tokens
  | arg :: args => arg.tokens ++ .symbol .comma :: argsTokens args

/-- The tokens of the arms of a `case`. -/
def armsTokens : List (Expr × Expr) → List Token
  | [] => []
  | (pattern, body) :: arms =>
    .keyword .when_ :: pattern.tokens ++ bracedTokens body.tokens ++ armsTokens arms

end

/-- The tokens of a tree do not start with one that ends a list, and with
    `while` only if the tree is no value. -/
theorem tokens_start {e : Expr} {place : Place} (h : e.printableAt place = true)
    (hle : place ≤ .block) :
    ∃ t ts, e.tokens = t :: ts ∧ t ∉ [.symbol .rparen, .symbol .rbrace, .eof] ∧
      (e.home ≤ .value → t ≠ .keyword .while_) := by
  induction e generalizing place with
  | num literal =>
    rcases numberTokens_cases h with ⟨cs, _, _, htokens⟩ | ⟨_, htokens⟩ <;>
      exact ⟨_, _, htokens, by simp, by simp⟩
  -- a sequence starts as its first part does, and is no value
  | seq rest last ih _ =>
    simp only [printableAt, Bool.and_eq_true] at h
    obtain ⟨t, ts, htokens, ht, _⟩ := ih h.1.2 (by decide)
    exact ⟨t, _, by rw [tokens, htokens]; rfl, ht,
      by simp [home, Place.le_iff, Place.rank]⟩
  | control property target value _ =>
    simp only [printableAt, Bool.and_eq_true] at h
    rcases referenceTokens_cases h.1.2 with ⟨_, htokens⟩ | ⟨_, _, _, htokens⟩ <;>
      exact ⟨_, _, by rw [tokens, htokens]; rfl, by simp, by simp⟩
  | sensor target name =>
    simp only [printableAt, Bool.and_eq_true] at h
    rcases referenceTokens_cases h.1 with ⟨_, htokens⟩ | ⟨_, _, _, htokens⟩ <;>
      exact ⟨_, _, by rw [tokens, htokens]; rfl, by simp, by simp⟩
  | unary op operand _ =>
    simp only [printableAt, Bool.and_eq_true] at h
    rcases negationToken?_cases h.1 with rfl | rfl <;>
      exact ⟨_, _, rfl, by simp, by simp⟩
  -- the only tree that starts with `while`
  | loop => exact ⟨_, _, rfl, by simp, by simp [home, Place.le_iff, Place.rank]⟩
  | bool value => cases value <;> exact ⟨_, _, rfl, by simp, by simp⟩
  | comment => exact absurd h (by simp [printableAt])
  | nop => exact absurd (Nat.le_trans (home_le h) hle) (by decide)
  | _ => exact ⟨_, _, rfl, by simp, by simp⟩

/-! ## Section 4: Nesting -/

/-- A statement that is a value stands one level below the block it is in. -/
def gap : Expr → Nat
  | seq .. => 0
  | loop .. => 0
  | nop => 0
  | _ => 1

mutual

/-- How many levels further in the innermost part of a tree stands. -/
def nesting : Expr → Nat
  | seq rest last => max (rest.gap + rest.nesting) (last.gap + last.nesting)
  | branch cond yes no =>
    1 + max cond.nesting (max (yes.gap + yes.nesting) (no.gap + no.nesting))
  | loop cond body => 1 + max cond.nesting (body.gap + body.nesting)
  | select subject arms otherwise =>
    max (1 + subject.nesting) (max (armsNesting arms) (1 + (otherwise.gap + otherwise.nesting)))
  | assign _ value => value.nesting
  | assignBuiltin _ value => value.nesting
  | load _ address => 1 + address.nesting
  | store _ address value => max (1 + address.nesting) value.nesting
  | control _ _ value => value.nesting
  | unary _ operand => 1 + operand.nesting
  -- the parentheses are one level, and the right operand another
  | binary _ left right => 1 + max left.nesting (1 + right.nesting)
  | call _ args => argsNesting args
  | _ => 0

/-- The same for the arguments of a call. -/
def argsNesting : List Expr → Nat
  | [] => 0
  | arg :: args => max (1 + arg.nesting) (argsNesting args)

/-- The same for the arms of a `case`. -/
def armsNesting : List (Expr × Expr) → Nat
  | [] => 0
  | (pattern, body) :: arms =>
    max (1 + max pattern.nesting (body.gap + body.nesting)) (armsNesting arms)

end

/-- How deep a program is nested. -/
def depth (e : Expr) : Nat := e.gap + e.nesting

theorem gap_of_home_le {e : Expr} (h : e.home ≤ .value) : e.gap = 1 := by
  cases e with
  | seq | loop | nop => exact absurd h (by simp [home, Place.le_iff, Place.rank])
  | _ => rfl

theorem statements_of_home_le {e : Expr} (h : e.home ≤ .statement) : e.statements = [e] := by
  cases e with
  | seq => exact absurd h (by simp [home, Place.le_iff, Place.rank])
  | _ => rfl

end Expr

end Mlog
