import Mlog.Proofs.Steps

/-! # The grammar, call by call

    A parser is a function on states, so it shows where a parse ends and not what
    happens on the way.  Here the rules of the grammar are written as scripts, in
    which every call of another rule, every repetition and every change of the
    nesting depth is a step of its own.

    * `Move`: what a rule does by itself, with the cursor and the faults.
    * `Script`: moves, calls, repetitions, and the depth going up and down.
    * `Routine.body`: the rules.  The depth is a number that is counted up and down,
      and nothing bounds a repetition.
    * `Runs script m trace a m'`: from the moment `m`, a script comes to its end at
      the moment `m'` with the value `a`.  The trace lists all calls on the way.

    A script that does not come to an end has no run.  There is at most one
    (`Runs.unique`), and what all moves keep to, all calls in it keep to
    (`Runs.goes`). -/

namespace Mlog

open Grammar (Chain)

/-! ## Section 1: Moves -/

/-- What a rule does without another rule. -/
inductive Move : Type → Type
  | peek : Move Token
  | here : Move Span
  | countAhead : Move Nat
  | advance : Move Unit
  | eat (token : Token) : Move Bool
  | expect (token : Token) : Move Unit
  | expectName : Move String
  | skipAll (token : Token) : Move Unit
  | recover (ahead : Nat) : Move Unit
  /-- Nesting too deep is no fault that a rule notes. -/
  | report (fault : SyntaxFault) (ordinary : fault ≠ .tooDeep := by simp) : Move Unit
  | reportAt (fault : SyntaxFault) (span : Span) (ordinary : fault ≠ .tooDeep := by simp) :
    Move Unit
  | skipComments : Move Unit
  | takeComments : Move (List Comment)

/-- A move as a step of a parse. -/
def Move.run {α : Type} : Move α → Parse α
  | peek => Parse.peek
  | here => Parse.here
  | countAhead => return (← get).ahead.length
  | advance => Parse.advance
  | eat token => Parse.eat token
  | expect token => Parse.expect token
  | expectName => Parse.expectName
  | skipAll token => modify (·.skipAll token)
  | recover ahead => Grammar.recover ahead
  | report fault _ => Parse.report fault
  | reportAt fault span _ => Parse.reportAt fault span
  | skipComments => Parse.skipComments
  | takeComments => Parse.takeComments

/-! ## Section 2: Scripts -/

/-- The rules that call one another, by the type of what they give. -/
inductive Routine : Type → Type
  | statements (closing : Token) : Routine (List Expr)
  | statement : Routine Expr
  | loop : Routine Expr
  | block : Routine Expr
  | expr : Routine Expr
  | assignment : Routine Expr
  | assign (target : Expr) (span : Span) (value : Expr) : Routine Expr
  | binary (power : Nat) : Routine Expr
  | unary : Routine Expr
  | negation : Routine Expr
  | primary : Routine Expr
  | builtin : Routine Expr
  | suffix (name : String) : Routine Expr
  | property : Routine String
  | arguments : Routine (List Expr)
  | branch : Routine Expr
  | select : Routine Expr

/-- What is to be done, step by step, and the value at the end. -/
inductive Script : Type → Type 1
  | done {α : Type} (a : α) : Script α
  | move {α β : Type} (m : Move β) (next : β → Script α) : Script α
  | call {α β : Type} (r : Routine β) (next : β → Script α) : Script α
  /-- Counts the depth up; is it within the limit? -/
  | enter {α : Type} (next : Bool → Script α) : Script α
  /-- Counts the depth down. -/
  | leave {α : Type} (next : Script α) : Script α
  /-- Makes rounds, each with the value of the one before, until one gives `none`. -/
  | rounds {α σ : Type} (round : σ → Script (Option σ)) (a : σ) (next : σ → Script α) : Script α

namespace Script

variable {α β : Type}

/-- One script after another. -/
def andThen : Script α → (α → Script β) → Script β
  | done a, f => f a
  | move m next, f => move m fun b => (next b).andThen f
  | call r next, f => call r fun b => (next b).andThen f
  | enter next, f => enter fun within => (next within).andThen f
  | leave next, f => leave (next.andThen f)
  | rounds round a next, f => rounds round a fun b => (next b).andThen f

instance : Monad Script where
  pure := done
  bind := andThen

/-- A move alone. -/
def act (m : Move α) : Script α := move m done

/-- A call alone. -/
def invoke (r : Routine α) : Script α := call r done

/-- A repetition alone. -/
def repeated (round : α → Script (Option α)) (a : α) : Script α := rounds round a done

/-- A call one level further in; beyond the limit, a stopgap instead. -/
def nested (r : Routine α) (stopgap : α) : Script α := do
  if ← enter done then
    let a ← invoke r
    leave (done a)
  else
    leave (done stopgap)

/-! ## Section 3: The rules -/

def block : Script Expr := do
  act (.expect (.symbol .lbrace))
  let body ← nested (.statements (.symbol .rbrace)) []
  act (.expect (.symbol .rbrace))
  return Expr.ofStatements body

def property : Script String := do
  let _ ← act (.eat (.symbol .atSign))
  return "@" ++ (← act .expectName)

def builtin : Script Expr := do
  let name ← act .expectName
  if ← act (.eat (.symbol .dot)) then
    return .sensor ("@" ++ name) (← invoke .property)
  else
    return .builtin name

def nextArgument (args : List Expr) : Script (Option (List Expr)) := do
  if ← act (.eat (.symbol .comma)) then
    return some ((← invoke .expr) :: args)
  else
    return none

def arguments : Script (List Expr) := do
  if ← act (.eat (.symbol .rparen)) then
    return []
  else
    let first ← invoke .expr
    let args ← repeated nextArgument [first]
    act (.expect (.symbol .rparen))
    return args.reverse

def suffix (name : String) : Script Expr := do
  match ← act .peek with
  | .symbol .lparen =>
    act .advance
    return .call name (← invoke .arguments)
  | .symbol .lbracket =>
    act .advance
    let address ← invoke .expr
    act (.expect (.symbol .rbracket))
    return .load name address
  | .symbol .dot =>
    act .advance
    return .sensor name (← invoke .property)
  | _ => return .var name

def branch : Script Expr := do
  act (.expect (.keyword .if_))
  let cond ← invoke .expr
  let yes ← invoke .block
  if ← act (.eat (.keyword .else_)) then
    if (← act .peek) = .keyword .if_ then
      return .branch cond yes (← nested .branch .nop)
    else
      return .branch cond yes (← invoke .block)
  else
    return .branch cond yes .nop

def nextArm (arms : List (Expr × Expr)) : Script (Option (List (Expr × Expr))) := do
  act .skipComments
  if ← act (.eat (.keyword .when_)) then
    let pattern ← invoke .expr
    let body ← invoke .block
    return some ((pattern, body) :: arms)
  else
    return none

def otherwise : Script Expr := do
  if ← act (.eat (.keyword .else_)) then invoke .block else return .nop

def closeSelect : Script Unit := do
  act .skipComments
  if ← act (.eat (.symbol .rbrace)) then
    return ()
  else
    act (.report (.expectedArm (← act .peek)))

def select : Script Expr := do
  act (.expect (.keyword .case_))
  let subject ← invoke .expr
  act (.expect (.symbol .lbrace))
  let arms ← repeated nextArm []
  let other ← otherwise
  closeSelect
  return .select subject arms.reverse other

def primary : Script Expr := do
  match ← act .peek with
  | .number text => act .advance; return .num text
  | .str text => act .advance; return .str text
  | .keyword .true_ => act .advance; return .bool true
  | .keyword .false_ => act .advance; return .bool false
  | .keyword .null_ => act .advance; return .null
  | .symbol .atSign => act .advance; invoke .builtin
  | .ident name => act .advance; invoke (.suffix name)
  | .keyword .if_ => invoke .branch
  | .keyword .case_ => invoke .select
  | .symbol .lparen =>
    act .advance
    let e ← invoke .expr
    act (.expect (.symbol .rparen))
    return e
  | .keyword .while_ => act (.report .loopAsValue); return .null
  | .symbol .rbrace => act (.report (.expectedExpression (.symbol .rbrace))); return .null
  | found => act (.report (.expectedExpression found)); act .advance; return .null

def negation : Script Expr := do
  match ← act .peek with
  | .keyword .not_ => act .advance; return .unary "not" (← nested .unary .nop)
  | .symbol .bang => act .advance; return .unary "!" (← nested .unary .nop)
  | _ => invoke .primary

def unary : Script Expr := do
  if (← act .peek) = .symbol .minus then
    let start ← act .here
    act .advance
    match ← act .peek with
    | .number text => act .advance; return .num ("-" ++ text)
    | _ =>
      act (.reportAt .negation start)
      act (.skipAll (.symbol .minus))
      invoke .negation
  else
    invoke .negation

def nextOperation (power : Nat) (left : Expr) : Script (Option Expr) := do
  match (← act .peek).binaryOperator? with
  | some (op, binding) =>
    if binding.left < power then
      return none
    else
      act .advance
      return some (.binary op left (← nested (.binary binding.right) .nop))
  | none => return none

def binary (power : Nat) : Script Expr := do
  repeated (nextOperation power) (← invoke .unary)

def assign (target : Expr) (span : Span) (value : Expr) : Script Expr := do
  match target with
  | .var name => return .assign name value
  | .builtin name => return .assignBuiltin name value
  | .load cell address => return .store cell address value
  | .sensor block name =>
    return .control (String.ofList (name.toList.dropWhile (· == '@'))) block value
  | _ =>
    act (.reportAt (.badTarget target) span)
    return value

def link (targets : List (Expr × Span)) : Script Chain := do
  let start ← act .here
  return ⟨targets, start, ← invoke (.binary 0)⟩

def nextAssignment (chain : Chain) : Script (Option Chain) := do
  if (← act .peek) = .symbol .assign then
    let span := chain.start.merge (← act .here)
    act .advance
    return some (← link ((chain.last, span) :: chain.targets))
  else
    return none

/-- The assignments of a chain, the last target first. -/
def assignAll : List (Expr × Span) → Expr → Script Expr
  | [], value => return value
  | target :: targets, value => do
    assignAll targets (← invoke (.assign target.1 target.2 value))

def assignment : Script Expr := do
  let chain ← repeated nextAssignment (← link [])
  assignAll chain.targets chain.last

def loop : Script Expr := do
  act (.expect (.keyword .while_))
  let cond ← invoke .expr
  return .loop cond (← invoke .block)

def bareStatement : Script Expr := do
  if (← act .peek) = .keyword .while_ then invoke .loop else invoke .expr

def statement : Script Expr := do
  let e ← bareStatement
  let _ ← act (.eat (.symbol .semicolon))
  return e

def nextStatement (closing : Token) (stmts : List Expr) : Script (Option (List Expr)) := do
  let token ← act .peek
  if token = closing ∨ token = .eof then
    act .skipComments
    return none
  else
    let comments ← act .takeComments
    let ahead ← act .countAhead
    let e ← invoke .statement
    act (.recover ahead)
    return some (e :: (comments.map fun c => Expr.comment c.value).reverse ++ stmts)

def statements (closing : Token) : Script (List Expr) := do
  return (← repeated (nextStatement closing) []).reverse

end Script

/-- The script of a rule. -/
def Routine.body {α : Type} : Routine α → Script α
  | statements closing => Script.statements closing
  | statement => Script.statement
  | loop => Script.loop
  | block => Script.block
  | expr => Script.nested .assignment .nop
  | assignment => Script.assignment
  | assign target span value => Script.assign target span value
  | binary power => Script.binary power
  | unary => Script.unary
  | negation => Script.negation
  | primary => Script.primary
  | builtin => Script.builtin
  | suffix name => Script.suffix name
  | property => Script.property
  | arguments => Script.arguments
  | branch => Script.branch
  | select => Script.select

/-! ## Section 4: Runs -/

/-- A point of a parse: its state, and how deep it is nested. -/
structure Moment where
  state : ParseState
  depth : Nat

namespace Moment

/-- Counts the depth up; beyond the limit, the parse is given up. -/
def enter (m : Moment) : Moment :=
  { state := if m.depth + 1 ≤ nestingLimit then m.state else m.state.abort
    depth := m.depth + 1 }

/-- Counts the depth down. -/
def leave (m : Moment) : Moment := { m with depth := m.depth - 1 }

end Moment

/-- What a trace lists. -/
inductive Event
  /-- A rule was called, and came to its end. -/
  | call {α : Type} (r : Routine α) (before after : Moment)
  /-- The depth was counted up to this number. -/
  | enter (depth : Nat)
  /-- The depth was counted down from this number. -/
  | leave (depth : Nat)

/-- A script comes to its end; see the head of the module. -/
inductive Runs : {α : Type} → Script α → Moment → List Event → α → Moment → Prop
  | done {α : Type} (a : α) (m : Moment) : Runs (.done a) m [] a m
  | move {α β : Type} {mv : Move β} {next : β → Script α} {m m' : Moment} {t : List Event} {a : α}
      (hnext : Runs (next (mv.run m.state).1) ⟨(mv.run m.state).2, m.depth⟩ t a m') :
      Runs (.move mv next) m t a m'
  | call {α β : Type} {r : Routine β} {next : β → Script α} {m m₁ m₂ : Moment}
      {t u : List Event} {b : β} {a : α} (hbody : Runs r.body m t b m₁)
      (hnext : Runs (next b) m₁ u a m₂) :
      Runs (.call r next) m (.call r m m₁ :: (t ++ u)) a m₂
  | enter {α : Type} {next : Bool → Script α} {m m' : Moment} {t : List Event} {a : α}
      (hnext : Runs (next (decide (m.depth + 1 ≤ nestingLimit))) m.enter t a m') :
      Runs (.enter next) m (.enter m.enter.depth :: t) a m'
  | leave {α : Type} {next : Script α} {m m' : Moment} {t : List Event} {a : α}
      (hnext : Runs next m.leave t a m') : Runs (.leave next) m (.leave m.depth :: t) a m'
  | lastRound {α σ : Type} {round : σ → Script (Option σ)} {x : σ} {next : σ → Script α}
      {m m₁ m₂ : Moment} {t u : List Event} {a : α} (hround : Runs (round x) m t none m₁)
      (hnext : Runs (next x) m₁ u a m₂) : Runs (.rounds round x next) m (t ++ u) a m₂
  | oneRound {α σ : Type} {round : σ → Script (Option σ)} {x y : σ} {next : σ → Script α}
      {m m₁ m₂ : Moment} {t u : List Event} {a : α} (hround : Runs (round x) m t (some y) m₁)
      (hothers : Runs (.rounds round y next) m₁ u a m₂) :
      Runs (.rounds round x next) m (t ++ u) a m₂

/-- There is one run at most. -/
theorem Runs.unique {α : Type} {script : Script α} {m m₁ m₂ : Moment} {t₁ t₂ : List Event}
    {a₁ a₂ : α} (h₁ : Runs script m t₁ a₁ m₁) (h₂ : Runs script m t₂ a₂ m₂) :
    t₁ = t₂ ∧ a₁ = a₂ ∧ m₁ = m₂ := by
  induction h₁ generalizing t₂ m₂ with
  | done a m =>
    cases h₂
    exact ⟨rfl, rfl, rfl⟩
  | move _ ih =>
    cases h₂ with
    | move hnext => exact ih hnext
  | call _ _ ihbody ihnext =>
    cases h₂ with
    | call hbody hnext =>
      obtain ⟨rfl, rfl, rfl⟩ := ihbody hbody
      obtain ⟨rfl, rfl, rfl⟩ := ihnext hnext
      exact ⟨rfl, rfl, rfl⟩
  | enter _ ih =>
    cases h₂ with
    | enter hnext =>
      obtain ⟨rfl, rfl, rfl⟩ := ih hnext
      exact ⟨rfl, rfl, rfl⟩
  | leave _ ih =>
    cases h₂ with
    | leave hnext =>
      obtain ⟨rfl, rfl, rfl⟩ := ih hnext
      exact ⟨rfl, rfl, rfl⟩
  -- a round has one value, so it cannot both be the last and go on
  | lastRound _ _ ihround ihnext =>
    cases h₂ with
    | lastRound hround hnext =>
      obtain ⟨rfl, _, rfl⟩ := ihround hround
      obtain ⟨rfl, rfl, rfl⟩ := ihnext hnext
      exact ⟨rfl, rfl, rfl⟩
    | oneRound hround _ => exact absurd (ihround hround).2.1 (by simp)
  | oneRound _ _ ihround ihothers =>
    cases h₂ with
    | lastRound hround _ => exact absurd (ihround hround).2.1 (by simp)
    | oneRound hround hothers =>
      obtain ⟨rfl, hvalue, rfl⟩ := ihround hround
      obtain rfl := Option.some.inj hvalue
      obtain ⟨rfl, rfl, rfl⟩ := ihothers hothers
      exact ⟨rfl, rfl, rfl⟩

/-- The run of one script after another. -/
theorem Runs.andThen {α β : Type} {script : Script α} {f : α → Script β} {m m₁ m₂ : Moment}
    {t u : List Event} {a : α} {b : β} (h : Runs script m t a m₁) (hf : Runs (f a) m₁ u b m₂) :
    Runs (script >>= f) m (t ++ u) b m₂ := by
  show Runs (script.andThen f) m (t ++ u) b m₂
  induction h with
  | done a m => exact hf
  | move _ ih => exact .move (ih hf)
  | call hbody _ _ ih =>
    rw [List.cons_append, List.append_assoc]
    exact .call hbody (ih hf)
  | enter _ ih => exact .enter (ih hf)
  | leave _ ih => exact .leave (ih hf)
  | lastRound hround _ _ ih =>
    rw [List.append_assoc]
    exact .lastRound hround (ih hf)
  | oneRound hround _ _ ih =>
    rw [List.append_assoc]
    exact .oneRound hround (ih hf)

/-! ## Section 5: What moves keep to -/

namespace ParseState

/-- The token under the cursor and those ahead of it. -/
def remaining (s : ParseState) : List (Located Token) := s.current :: s.ahead

/-- Too deep a nesting is noted once the parse is given up and not before, and then it is
    the latest fault and the cursor is at the last token. -/
def Settled (s : ParseState) : Prop :=
  if s.aborted then
    s.ahead = [] ∧ ∃ f fs, s.faults = f :: fs ∧ f.value = .tooDeep ∧ ∀ g ∈ fs, g.value ≠ .tooDeep
  else ∀ f ∈ s.faults, f.value ≠ .tooDeep

/-- One state comes after another in a parse. -/
structure Goes (s s' : ParseState) : Prop where
  /-- The cursor does not move back. -/
  remaining : s'.remaining <:+ s.remaining
  /-- Faults stay noted, new ones come after them. -/
  faults : s.faults <:+ s'.faults
  /-- Once the parse was given up, no fault is noted. -/
  aborted : s.aborted = true → s'.aborted = true ∧ s'.faults = s.faults
  settled : s.Settled → s'.Settled

namespace Goes

theorem refl (s : ParseState) : s.Goes s :=
  ⟨List.suffix_refl _, List.suffix_refl _, fun h => ⟨h, rfl⟩, id⟩

theorem trans {s s' s'' : ParseState} (h : s.Goes s') (h' : s'.Goes s'') : s.Goes s'' := by
  refine ⟨h'.remaining.trans h.remaining, h.faults.trans h'.faults, ?_, h'.settled ∘ h.settled⟩
  intro haborted
  obtain ⟨haborted', hfaults⟩ := h.aborted haborted
  obtain ⟨haborted'', hfaults'⟩ := h'.aborted haborted'
  exact ⟨haborted'', hfaults'.trans hfaults⟩

theorem advance (s : ParseState) : s.Goes s.advance := by
  cases hahead : s.ahead with
  | nil =>
    have hstays : s.advance = s := by simp [ParseState.advance, hahead]
    rw [hstays]
    exact refl s
  | cons t ts =>
    have hmoves : s.advance = { s with current := t, ahead := ts } := by
      simp [ParseState.advance, hahead]
    rw [hmoves]
    refine ⟨?_, List.suffix_refl _, fun h => ⟨h, rfl⟩, ?_⟩
    · show t :: ts <:+ s.current :: s.ahead
      rw [hahead]
      exact List.suffix_cons _ _
    · -- a parse that was given up has no token ahead
      intro hsettled
      unfold Settled at hsettled ⊢
      cases haborted : s.aborted with
      | true =>
        rw [haborted, if_pos rfl, hahead] at hsettled
        exact absurd hsettled.1 (by simp)
      | false => simpa [haborted] using hsettled

theorem skipAll (s : ParseState) (token : Token) : s.Goes (s.skipAll token) := by
  have hgo : ∀ ahead current, ({ s with current, ahead } : ParseState).Goes
      (ParseState.skipAll.go token s current ahead) := by
    intro ahead
    induction ahead with
    | nil => exact fun _ => refl _
    | cons t ts ih =>
      intro current
      unfold ParseState.skipAll.go
      split
      · exact (advance { s with current, ahead := t :: ts }).trans (ih t)
      · exact refl _
  exact hgo s.ahead s.current

theorem skipComments (s : ParseState) : s.Goes s.skipComments :=
  ⟨List.suffix_refl _, List.suffix_refl _, fun h => ⟨h, rfl⟩, id⟩

theorem report (s : ParseState) {fault : SyntaxFault} (hfault : fault ≠ .tooDeep) (span : Span) :
    s.Goes (s.report fault span) := by
  cases haborted : s.aborted with
  | true =>
    rw [report_of_aborted haborted]
    exact refl s
  | false =>
    have hnoted : s.report fault span = { s with faults := ⟨fault, span⟩ :: s.faults } := by
      simp [ParseState.report, haborted]
    rw [hnoted]
    refine ⟨List.suffix_refl _, List.suffix_cons _ _, fun h => absurd h (by simp [haborted]), ?_⟩
    intro hsettled
    unfold Settled at hsettled ⊢
    simp only [haborted, Bool.false_eq_true, if_false] at hsettled ⊢
    exact List.forall_mem_cons.mpr ⟨hfault, hsettled⟩

theorem abort (s : ParseState) : s.Goes s.abort := by
  have hlast : s.abort.remaining <:+ s.remaining := by
    show [s.lastToken] <:+ s.current :: s.ahead
    rw [lastToken, ← List.getLast_eq_getLastD (List.cons_ne_nil _ _)]
    exact ⟨_, List.dropLast_concat_getLast _⟩
  cases haborted : s.aborted with
  -- the fault has been noted already, and is not noted twice
  | true =>
    have hfaults : s.abort.faults = s.faults := by
      show (s.report .tooDeep s.current.span).faults = s.faults
      rw [report_of_aborted haborted]
    refine ⟨hlast, hfaults ▸ List.suffix_refl _, fun _ => ⟨rfl, hfaults⟩, ?_⟩
    intro hsettled
    unfold Settled at hsettled ⊢
    rw [haborted, if_pos rfl] at hsettled
    rw [hfaults]
    exact ⟨rfl, hsettled.2⟩
  -- noted for the first time, it is the last fault from here on
  | false =>
    have hfaults : s.abort.faults = ⟨.tooDeep, s.current.span⟩ :: s.faults :=
      faults_report_of_going haborted ..
    refine ⟨hlast, hfaults ▸ List.suffix_cons _ _, fun h => absurd h (by simp [haborted]), ?_⟩
    intro hsettled
    unfold Settled at hsettled ⊢
    simp only [haborted, Bool.false_eq_true, if_false] at hsettled
    exact ⟨rfl, _, _, hfaults, rfl, hsettled⟩

end Goes

end ParseState

theorem Parse.peek_bind {β : Type} (f : Token → Parse β) (s : ParseState) :
    (Parse.peek >>= f) s = f s.current.value s := rfl

/-- Every move goes on from where the parse is. -/
theorem Move.goes {α : Type} (mv : Move α) (s : ParseState) : s.Goes (mv.run s).2 := by
  cases mv with
  | peek | here | countAhead => exact .refl s
  | advance => exact .advance s
  | eat token =>
    show s.Goes (if s.current.value = token then (true, s.advance) else (false, s)).2
    split
    · exact .advance s
    · exact .refl s
  | expect token =>
    show s.Goes ((Parse.eat token >>= _) s).2
    rw [Parse.eat_bind]
    split
    · exact .advance s
    · have hordinary : SyntaxFault.expected token s.current.value ≠ .tooDeep := by simp
      exact .report s hordinary _
  | expectName =>
    show s.Goes (Parse.expectName s).2
    unfold Parse.expectName
    rw [Parse.peek_bind]
    generalize s.current.value = token
    split
    · exact .advance s
    · have hordinary : SyntaxFault.expectedName token ≠ .tooDeep := by simp
      exact .report s hordinary _
  | skipAll token => exact .skipAll s token
  -- recovery advances only if the parser before it has stood still
  | recover ahead =>
    show s.Goes (if s.ahead.length = ahead then s.advance else s)
    split
    · exact .advance s
    · exact .refl s
  | report fault hfault => exact .report s hfault _
  | reportAt fault span hfault => exact .report s hfault span
  | skipComments | takeComments => exact .skipComments s

theorem Moment.goes_enter (m : Moment) : m.state.Goes m.enter.state := by
  unfold Moment.enter
  split
  · exact .refl _
  · exact .abort _

/-- The calls in a trace came after a state, and each of them went on from where it began. -/
def Event.Passed (s : ParseState) : Event → Prop
  | call _ before after => s.Goes before.state ∧ before.state.Goes after.state
  | enter _ | leave _ => True

theorem Event.Passed.since {e : Event} {s s' : ParseState} (h : e.Passed s') (hgoes : s.Goes s') :
    e.Passed s := by
  cases e with
  | call r before after => exact ⟨hgoes.trans h.1, h.2⟩
  | enter _ | leave _ => trivial

/-- What all moves keep to, a run and all calls in it keep to. -/
theorem Runs.goes {α : Type} {script : Script α} {m m' : Moment} {t : List Event} {a : α}
    (h : Runs script m t a m') : m.state.Goes m'.state ∧ ∀ e ∈ t, e.Passed m.state := by
  induction h with
  | done a m => exact ⟨.refl _, by simp⟩
  | @move _ _ mv _ m _ _ _ _ ih =>
    have hmove := mv.goes m.state
    exact ⟨hmove.trans ih.1, fun e he => (ih.2 e he).since hmove⟩
  | call _ _ ihbody ihnext =>
    refine ⟨ihbody.1.trans ihnext.1, List.forall_mem_cons.mpr ⟨⟨.refl _, ihbody.1⟩, ?_⟩⟩
    -- what the call passes through, and what comes after it, starting where it ends
    intro e he
    rcases List.mem_append.mp he with he | he
    · exact ihbody.2 e he
    · exact (ihnext.2 e he).since ihbody.1
  | @enter _ _ m _ _ _ _ ih =>
    refine ⟨m.goes_enter.trans ih.1, List.forall_mem_cons.mpr ⟨trivial, ?_⟩⟩
    exact fun e he => (ih.2 e he).since m.goes_enter
  | leave _ ih => exact ⟨ih.1, List.forall_mem_cons.mpr ⟨trivial, ih.2⟩⟩
  | lastRound _ _ ihround ihnext | oneRound _ _ ihround ihnext =>
    refine ⟨ihround.1.trans ihnext.1, ?_⟩
    intro e he
    rcases List.mem_append.mp he with he | he
    · exact ihround.2 e he
    · exact (ihnext.2 e he).since ihround.1

end Mlog
