import Mlog.Compile
import Mlog.Expr.Equality
import Mlog.Proofs.Shape
import Mlog.Proofs.Soundness
import Mlog.Proofs.Tiling

/-! # Parsed trees are shaped

    The trees that a parser gives after a fault are stopgaps: `null` where no
    expression starts, the empty name, `nop` where the parse was given up.  None
    of them is in the tree of a text without faults, so these trees are shaped
    (`Shaped`), and code generation finds little that can be wrong in them.

    * `Token.Spelled`: what the texts in tokens are.
    * `Gives p R`: the parser `p` notes a fault or gives a value as `R` says.  It is
      the contract `Ensures` for parses without faults.
    * `ShapedInner`: the parsers of one nesting level, given those of the level
      further in. -/

namespace Mlog

/-! ## Section 1: Spelled tokens -/

/-- The texts in a token are spelled as in a source text. -/
def Token.Spelled : Token → Prop
  | ident name => Text.isName name = true
  | number text => Text.isNumeral text.toList = true
  | str text => '\n' ∉ text.toList
  | _ => True

/-- Reading a quoted text brings no new characters in. -/
theorem mem_of_mem_unescape {c : Char} {cs : List Char} (h : c ∈ Text.unescape cs) : c ∈ cs := by
  fun_induction Text.unescape cs with
  | case1 cs ih =>
    rcases List.mem_cons.mp h with rfl | h
    · simp
    · simp [ih h]
  | case2 d cs _ ih =>
    rcases List.mem_cons.mp h with rfl | h
    · exact List.mem_cons_self
    · exact List.mem_cons_of_mem _ (ih h)
  | case3 => exact h

theorem Token.Written.spelled {t : Token} {cs : List Char} (h : t.Written cs) : t.Spelled := by
  cases t with
  | ident name => exact h.2
  | number text =>
    have hnumeral := h.2
    rwa [h.1] at hnumeral
  | str text =>
    obtain ⟨inside, _, hline, rfl⟩ := h
    show '\n' ∉ (String.ofList (Text.unescape inside)).toList
    rw [String.toList_ofList]
    exact fun hmem => hline (mem_of_mem_unescape hmem)
  | _ => exact trivial

/-- A state of a parse that has not been given up, before spelled tokens. -/
structure ParseState.Clean (s : ParseState) : Prop where
  going : s.aborted = false
  current : s.current.value.Spelled
  ahead : ∀ t ∈ s.ahead, t.value.Spelled

theorem ParseState.Clean.advance {s : ParseState} (h : s.Clean) : s.advance.Clean := by
  unfold ParseState.advance
  split
  · exact h
  · rename_i t ts hahead
    have hspelled := h.ahead
    rw [hahead] at hspelled
    obtain ⟨ht, hts⟩ := List.forall_mem_cons.mp hspelled
    exact ⟨h.going, ht, hts⟩

/-! ## Section 2: Contracts -/

/-- Parses without faults, in clean states. -/
def faultless : Watch .all := ⟨ParseState.Clean, fun s => s.faults = [], sticky_faulty⟩

/-- What a parser gives if it notes no fault. -/
abbrev Gives {α : Type} (p : Parse α) (R : α → Prop) : Prop := Ensures faultless p R

namespace Gives

variable {α β : Type} {p : Parse α} {R : α → Prop} {T : β → Prop}

theorem peek {f : Token → Parse β} (h : ∀ t, t.Spelled → Gives (f t) T) :
    Gives (Parse.peek >>= f) T :=
  ⟨fun s hclean hfaults => (h _ hclean.current).ensures s hclean hfaults⟩

theorem here {f : Span → Parse β} (h : ∀ span, Gives (f span) T) : Gives (Parse.here >>= f) T :=
  .step (fun _ hclean => hclean) h

theorem advance {f : Unit → Parse β} (h : Gives (f ()) T) : Gives (Parse.advance >>= f) T :=
  .step (fun _ hclean => hclean.advance) fun _ => h

theorem eat {token : Token} {f : Bool → Parse β} (hfound : Gives (f true) T)
    (hmissing : Gives (f false) T) : Gives (Parse.eat token >>= f) T := by
  constructor
  intro s hclean hfaults
  rw [Parse.eat_bind] at hfaults ⊢
  by_cases htoken : s.current.value = token
  · rw [if_pos htoken] at hfaults ⊢
    exact hfound.ensures _ hclean.advance hfaults
  · rw [if_neg htoken] at hfaults ⊢
    exact hmissing.ensures _ hclean hfaults

theorem eatOptional {token : Token} {f : Unit → Parse β} (h : Gives (f ()) T) :
    Gives (Functor.discard (Parse.eat token) >>= f) T := by
  have hdiscard : (Functor.discard (Parse.eat token) >>= f) =
      (Parse.eat token >>= fun _ => f ()) := rfl
  rw [hdiscard]
  exact eat h h

theorem skipComments {f : Unit → Parse β} (h : Gives (f ()) T) :
    Gives (Parse.skipComments >>= f) T :=
  .step (fun _ hclean => ⟨hclean.going, hclean.current, hclean.ahead⟩) fun _ => h

theorem takeComments {f : List Comment → Parse β} (h : ∀ taken, Gives (f taken) T) :
    Gives (Parse.takeComments >>= f) T :=
  .step (fun _ hclean => ⟨hclean.going, hclean.current, hclean.ahead⟩) h

/-- A parser that is recovered from. -/
theorem recover {f : α → Parse β} [∀ a, Keeps (f a)] (hp : Gives p R)
    (hf : ∀ a, R a → Gives (f a) T) :
    Gives (do
      let ahead := (← get).ahead.length
      let a ← p
      Grammar.recover ahead
      f a) T := by
  have hrecover : ∀ ahead s, s.Clean → (Grammar.recover ahead s).2.Clean := by
    intro ahead s hclean
    show (if s.ahead.length = ahead then s.advance else s).Clean
    split
    · exact hclean.advance
    · exact hclean
  apply Ensures.step fun _ hclean => hclean
  intro s
  exact hp.bind fun a ha => Ensures.step (hrecover _) fun _ => hf a ha

/-- After a fault has been noted, anything may be said. -/
theorem reportAt (fault : SyntaxFault) (span : Span) {R : Unit → Prop} :
    Gives (Parse.reportAt fault span) R := by
  constructor
  intro s hclean hnone
  have hfaults := ParseState.faults_report_of_going hclean.going fault span
  exact absurd (hfaults.symm.trans hnone) (by simp)

theorem report (fault : SyntaxFault) {R : Unit → Prop} : Gives (Parse.report fault) R := by
  constructor
  intro s hclean hnone
  have hfaults := ParseState.faults_report_of_going hclean.going fault s.current.span
  exact absurd (hfaults.symm.trans hnone) (by simp)

theorem giveUp (a : α) : Gives (Grammar.giveUp a) R := by
  constructor
  intro s hclean hnone
  have hfaults := ParseState.faults_report_of_going hclean.going .tooDeep s.current.span
  exact absurd (hfaults.symm.trans hnone) (by simp)

/-- What is done after a fault only has to keep it. -/
theorem afterFault {f : α → Parse β} [∀ a, Keeps (f a)] (hp : Gives p fun _ => False) :
    Gives (p >>= f) T := hp.bind fun _ h => h.elim

theorem expect {token : Token} {f : Unit → Parse β} [∀ u, Keeps (f u)] (h : Gives (f ()) T) :
    Gives (Parse.expect token >>= f) T := by
  have hexpect : Gives (Parse.expect token) fun _ => True :=
    .eat (.pure trivial) (.peek fun _ _ => .report _)
  exact hexpect.bind fun _ _ => h

theorem expectName {f : String → Parse β} [∀ name, Keeps (f name)]
    (h : ∀ name, Text.isName name = true → Gives (f name) T) :
    Gives (Parse.expectName >>= f) T := by
  have hname : Gives Parse.expectName fun name => Text.isName name = true := by
    apply peek
    intro t ht
    cases t with
    | ident name => exact .advance (.pure ht)
    | _ => exact .afterFault (.report _)
  exact hname.bind h

end Gives

/-! ## Section 3: Expressions of one level -/

open Mlog.Expr (ofStatements)

/-- The parsers of a level give shaped trees. -/
structure ShapedInner (inner : Inner) : Prop where
  expr : Gives inner.expr (Shaped .value)
  statements : Gives inner.statements fun stmts => Shaped .block (ofStatements stmts)
  rightOperand : ∀ power, Gives (inner.rightOperand power) (Shaped .value)
  negated : Gives inner.negated (Shaped .value)
  elseIf : Gives inner.elseIf (Shaped .value)

namespace Grammar

variable {inner : Inner} [KeepsInner inner]

theorem gives_block (h : ShapedInner inner) : Gives (block inner) (Shaped .block) := by
  apply Gives.expect
  apply h.statements.bind
  intro stmts hstmts
  exact Gives.expect (.pure hstmts)

theorem gives_property : Gives property fun name => Text.isSigned name = true := by
  apply Gives.eatOptional
  apply Gives.expectName
  intro name hname
  exact .pure (Text.isSigned_append hname)

theorem gives_builtin : Gives builtin (Shaped .value) := by
  apply Gives.expectName
  intro name hname
  apply Gives.eat
  · apply gives_property.bind
    intro property hproperty
    exact .pure (.sensor (by simp [isReference, Text.isSigned_append hname]) hproperty)
  · exact .pure (.builtin hname)

omit [KeepsInner inner] in
theorem gives_nextArgument (h : ShapedInner inner) {args : List Expr}
    (hargs : ∀ arg ∈ args, Shaped .value arg) :
    Gives (nextArgument inner args) fun next =>
      ∀ args ∈ next, ∀ arg ∈ args, Shaped .value arg := by
  apply Gives.eat
  · apply h.expr.bind
    intro e he
    apply Ensures.pure
    simpa using ⟨he, hargs⟩
  · exact .pure (by simp)

theorem gives_arguments (h : ShapedInner inner) :
    Gives (arguments inner) fun args => ∀ arg ∈ args, Shaped .value arg := by
  apply Gives.eat
  · exact .pure (by simp)
  · apply h.expr.bind
    intro first hfirst
    have hone : ∀ arg ∈ [first], Shaped .value arg := by simpa using hfirst
    apply (Ensures.iterate (fun _ => gives_nextArgument h) hone).bind
    intro args hargs
    exact Gives.expect (.pure (by simpa using hargs))

theorem gives_suffix (h : ShapedInner inner) {name : String} (hname : Text.isName name = true) :
    Gives (suffix inner name) (Shaped .value) := by
  apply Gives.peek
  intro t _
  split
  · apply Gives.advance
    apply (gives_arguments h).bind
    intro args hargs
    exact .pure (.call hname hargs)
  · apply Gives.advance
    apply h.expr.bind
    intro address haddress
    exact Gives.expect (.pure (.load hname haddress))
  · apply Gives.advance
    apply gives_property.bind
    intro property hproperty
    exact .pure (.sensor (by simp [isReference, hname]) hproperty)
  · exact .pure (.var hname)

theorem gives_branch (h : ShapedInner inner) : Gives (branch inner) (Shaped .value) := by
  apply Gives.expect
  apply h.expr.bind
  intro cond hcond
  apply (gives_block h).bind
  intro yes hyes
  apply Gives.eat
  · apply Gives.peek
    intro t _
    split
    · apply h.elseIf.bind
      intro no hno
      exact .pure (.branch hcond hyes (.one (.expression hno)))
    · apply (gives_block h).bind
      intro no hno
      exact .pure (.branch hcond hyes hno)
  · exact .pure (.branch hcond hyes .nop)

/-- All arms of a `case` are shaped. -/
def ShapedArms (arms : List (Expr × Expr)) : Prop :=
  ∀ arm ∈ arms, Shaped .value arm.1 ∧ Shaped .block arm.2

theorem gives_nextArm (h : ShapedInner inner) {arms : List (Expr × Expr)}
    (harms : ShapedArms arms) :
    Gives (nextArm inner arms) fun next => ∀ arms ∈ next, ShapedArms arms := by
  apply Gives.skipComments
  apply Gives.eat
  · apply h.expr.bind
    intro pattern hpattern
    apply (gives_block h).bind
    intro body hbody
    apply Ensures.pure
    intro arms harms'
    rw [← Option.some.inj harms']
    exact List.forall_mem_cons.mpr ⟨⟨hpattern, hbody⟩, harms⟩
  · exact .pure (by simp)

theorem gives_otherwise (h : ShapedInner inner) : Gives (otherwise inner) (Shaped .block) := by
  apply Gives.eat
  · exact gives_block h
  · exact .pure .nop

theorem gives_select (h : ShapedInner inner) : Gives (select inner) (Shaped .value) := by
  apply Gives.expect
  apply h.expr.bind
  intro subject hsubject
  apply Gives.expect
  have hnone : ShapedArms [] := by simp [ShapedArms]
  apply (Ensures.iterate (fun _ => gives_nextArm h) hnone).bind
  intro arms harms
  apply (gives_otherwise h).bind
  intro other hother
  have hclose : Gives closeSelect fun _ => True :=
    .skipComments (.eat (.pure trivial) (.peek fun _ _ => .report _))
  apply hclose.bind
  intro _ _
  apply Ensures.pure
  have harms : ShapedArms arms.reverse := by simpa [ShapedArms] using harms
  exact .select hsubject (fun arm harm => (harms arm harm).1)
    (fun arm harm => (harms arm harm).2) hother

theorem gives_primary (h : ShapedInner inner) : Gives (primary inner) (Shaped .value) := by
  apply Gives.peek
  intro t ht
  split
  · exact .advance (.pure (.num (Text.isNumber_of_isNumeral ht)))
  · exact .advance (.pure (.str ht))
  · exact .advance (.pure (.bool true))
  · exact .advance (.pure (.bool false))
  · exact .advance (.pure .null)
  · exact .advance gives_builtin
  · exact .advance (gives_suffix h ht)
  · exact gives_branch h
  · exact gives_select h
  · apply Gives.advance
    apply h.expr.bind
    intro e he
    exact Gives.expect (.pure he)
  -- no expression starts here
  · exact .afterFault (.report _)
  · exact .afterFault (.report _)
  · exact .afterFault (.report _)

/-! ## Section 4: Operations and assignments -/

theorem gives_negation (h : ShapedInner inner) : Gives (negation inner) (Shaped .value) := by
  apply Gives.peek
  intro t _
  split
  · apply Gives.advance
    apply h.negated.bind
    intro e he
    exact .pure (.unary (by simp [loweredUnary]) he)
  · apply Gives.advance
    apply h.negated.bind
    intro e he
    exact .pure (.unary (by simp [loweredUnary]) he)
  · exact gives_primary h

theorem gives_unary (h : ShapedInner inner) : Gives (unary inner) (Shaped .value) := by
  apply Gives.peek
  intro t _
  split
  · apply Gives.here
    intro start
    apply Gives.advance
    apply Gives.peek
    intro u hu
    split
    · exact .advance (.pure (.num (Text.isNumber_minus hu)))
    · exact .afterFault (.reportAt _ _)
  · exact gives_negation h

theorem mem_sourceBinary {t : Token} {op : String} {binding : Binding}
    (h : t.binaryOperator? = some (op, binding)) : op ∈ sourceBinary := by
  obtain ⟨tier, hmem, _⟩ := tier_of_binaryOperator? h
  have hall : ∀ sign ∈ tier.signs, sign.2 ∈ sourceBinary := by cases tier <;> decide
  exact hall _ hmem

omit [KeepsInner inner] in
theorem gives_nextOperation (h : ShapedInner inner) (power : Nat) {left : Expr}
    (hleft : Shaped .value left) :
    Gives (nextOperation inner power left) fun next => ∀ e ∈ next, Shaped .value e := by
  apply Gives.peek
  intro t _
  cases hoperator : t.binaryOperator? with
  | none => exact .pure (by simp)
  | some operator =>
    obtain ⟨op, binding⟩ := operator
    by_cases hlt : binding.left < power
    · simp only [hlt, if_true]
      exact .pure (by simp)
    · simp only [hlt, if_false]
      apply Gives.advance
      apply (h.rightOperand binding.right).bind
      intro right hright
      apply Ensures.pure
      intro e he
      rw [← Option.some.inj he]
      exact .binary (mem_sourceBinary hoperator) hleft hright

theorem gives_binary (h : ShapedInner inner) (power : Nat) :
    Gives (binary inner power) (Shaped .value) := by
  apply (gives_unary h).bind
  intro first hfirst
  exact .iterate (fun _ => gives_nextOperation h power) hfirst

theorem gives_assign {target value : Expr} (htarget : Shaped .value target)
    (hvalue : Shaped .value value) (span : Span) :
    Gives (assign target span value) (Shaped .value) := by
  cases htarget with
  | var hname => exact .pure (.assign hname hvalue)
  | builtin hname => exact .pure (.assignBuiltin hname hvalue)
  | load hcell haddress => exact .pure (.store hcell haddress hvalue)
  | sensor hblock hproperty =>
    obtain ⟨name, rfl, hname⟩ := Text.isSigned_cases hproperty
    apply Ensures.pure
    rw [Text.dropWhile_signed hname]
    exact .control hname hblock hvalue
  -- nothing else can be assigned to
  | _ => exact .afterFault (.reportAt _ _)

/-- A chain of shaped left sides that ends in a shaped expression. -/
def ShapedChain (chain : Chain) : Prop :=
  (∀ target ∈ chain.targets, Shaped .value target.1) ∧ Shaped .value chain.last

theorem gives_link (h : ShapedInner inner) {targets : List (Expr × Span)}
    (htargets : ∀ target ∈ targets, Shaped .value target.1) :
    Gives (link inner targets) ShapedChain := by
  apply Gives.here
  intro start
  apply (gives_binary h 0).bind
  intro e he
  exact .pure ⟨htargets, he⟩

theorem gives_nextAssignment (h : ShapedInner inner) {chain : Chain} (hchain : ShapedChain chain) :
    Gives (nextAssignment inner chain) fun next => ∀ chain ∈ next, ShapedChain chain := by
  apply Gives.peek
  intro t _
  split
  · apply Gives.here
    intro place
    apply Gives.advance
    have htargets : ∀ target ∈ (chain.last, chain.start.merge place) :: chain.targets,
        Shaped .value target.1 := List.forall_mem_cons.mpr ⟨hchain.2, hchain.1⟩
    apply (gives_link h htargets).bind
    intro next hnext
    exact .pure (by simpa using hnext)
  · exact .pure (by simp)

theorem gives_assignAll {targets : List (Expr × Span)} {value : Expr}
    (htargets : ∀ target ∈ targets, Shaped .value target.1) (hvalue : Shaped .value value) :
    Gives (targets.foldlM (fun value target => assign target.1 target.2 value) value)
      (Shaped .value) := by
  induction targets generalizing value with
  | nil => exact .pure hvalue
  | cons target targets ih =>
    obtain ⟨htarget, htargets⟩ := List.forall_mem_cons.mp htargets
    rw [List.foldlM_cons]
    apply (gives_assign htarget hvalue target.2).bind
    intro e he
    exact ih htargets he

theorem gives_assignment (h : ShapedInner inner) : Gives (assignment inner) (Shaped .value) := by
  apply (gives_link h (by simp)).bind
  intro first hfirst
  apply (Ensures.iterate (fun _ => gives_nextAssignment h) hfirst).bind
  intro chain hchain
  exact gives_assignAll hchain.1 hchain.2

/-! ## Section 5: Statements -/

theorem gives_statement (h : ShapedInner inner) : Gives (statement inner) (Shaped .statement) := by
  have hloop : Gives (loop inner) (Shaped .statement) := by
    apply Gives.expect
    apply h.expr.bind
    intro cond hcond
    apply (gives_block h).bind
    intro body hbody
    exact .pure (.loop hcond hbody)
  have hbare : Gives (bareStatement inner) (Shaped .statement) := by
    apply Gives.peek
    intro t _
    split
    · exact hloop
    · exact h.expr.post fun _ he => .expression he
  apply hbare.bind
  intro e he
  exact Gives.eatOptional (.pure he)

theorem gives_nextStatement (h : ShapedInner inner) (closing : Token) {stmts : List Expr}
    (hstmts : ShapedStatements stmts) :
    Gives (nextStatement inner closing stmts) fun next =>
      ∀ stmts ∈ next, ShapedStatements stmts := by
  apply Gives.peek
  intro t _
  split
  · exact .skipComments (.pure (by simp))
  · apply Gives.takeComments
    intro taken
    apply (gives_statement h).recover
    intro e he
    apply Ensures.pure
    intro stmts' hstmts'
    rw [← Option.some.inj hstmts']
    exact hstmts.next taken he

theorem gives_statements (h : ShapedInner inner) (closing : Token) :
    Gives (statements inner closing) fun stmts => Shaped .block (ofStatements stmts) := by
  have hnone : ShapedStatements [] := ⟨by simp, by simp⟩
  apply (Ensures.iterate (fun _ => gives_nextStatement h closing) hnone).bind
  intro stmts hstmts
  exact .pure hstmts.block

/-- The parsers of every level give shaped trees. -/
theorem shapedInner_level (n : Nat) : ShapedInner (level n) := by
  induction n with
  | zero => exact ⟨.giveUp _, .giveUp _, fun _ => .giveUp _, .giveUp _, .giveUp _⟩
  | succ n ih =>
    exact ⟨gives_assignment ih, gives_statements ih _, fun power => gives_binary ih power,
      gives_unary ih, gives_branch ih⟩

end Grammar

/-! ## Section 6: Programs -/

theorem spelled_of_mem_lex {source : String} {t : Located Token} (h : t ∈ (lex source).tokens) :
    t.value.Spelled := by
  obtain ⟨wide, hwide, rfl⟩ := List.mem_map.mp h
  rcases written_of_mem_tokens hwide with heof | ⟨cs, _, hwritten⟩
  · rw [Located.value_narrow, heof]
    exact trivial
  · exact hwritten.spelled

theorem ParseState.clean_start {tokens : List (Located Token)} (comments : List Comment)
    (h : ∀ t ∈ tokens, t.value.Spelled) : (start tokens comments).Clean := by
  have hclosed : ∀ t ∈ closed tokens, t.value.Spelled := by
    intro t ht
    unfold closed at ht
    split at ht
    · split at ht
      · exact h t ht
      · rcases List.mem_append.mp ht with ht | ht
        · exact h t ht
        · rw [List.mem_singleton.mp ht]
          exact trivial
    · rw [List.mem_singleton.mp ht]
      exact trivial
  refine ⟨rfl, ?_, ?_⟩
  · show ((closed tokens).headD (endOfFile 0)).value.Spelled
    cases hhead : closed tokens with
    | nil => exact trivial
    | cons first others => exact hclosed first (by simp [hhead])
  · intro t ht
    exact hclosed t (List.mem_of_mem_tail ht)

/-- A text is accepted only if its tokens are. -/
theorem parse_of_parseSource {source : String} {e : Expr} (h : parseSource source = .ok e) :
    parse (lex source).tokens (lex source).comments = .ok e := by
  simp only [parseSource] at h
  split at h
  · revert h
    cases parse (lex source).tokens (lex source).comments with
    | error faults => simp [Except.mapError]
    | ok e' => simp [Except.mapError]
  · exact absurd h (by simp)

theorem shaped_of_parseSource {source : String} {e : Expr} (h : parseSource source = .ok e) :
    Shaped .block e := by
  obtain ⟨hnone, rfl⟩ := parse_eq_ok_iff.mp (parse_of_parseSource h)
  have hclean : (ParseState.start (lex source).tokens (lex source).comments).Clean :=
    ParseState.clean_start _ fun _ => spelled_of_mem_lex
  have hgives := Grammar.gives_statements (Grammar.shapedInner_level nestingLimit) .eof
  exact (hgives.ensures _ hclean hnone).2

/-- The error of code generation is something that is wrong in the tree. -/
theorem mem_violations_of_generate {e : Expr} {error : LoweringError}
    (h : generate e = .error error) : error ∈ e.violations := by
  unfold generate at h
  rcases Lowering.answersTree e Names.none with ⟨_, f, hf, _⟩ | ⟨fault, hhead, hfault⟩
  · rw [hf] at h
    exact absurd h (by simp [Except.map])
  · rw [hfault] at h
    obtain rfl : fault = error := by simpa [Except.map] using h
    exact List.mem_of_mem_head? hhead

/-- The tree of a text that is accepted is shaped, so little can be wrong in it:
    a remainder, a call, or a block of an `if` or of a `case` that has no value.
    Code generation fails with one of these, if at all. -/
theorem parseSource_shaped {source : String} {e : Expr} (h : parseSource source = .ok e) :
    Shaped .block e ∧ (∀ error ∈ e.violations, error.Possible) ∧
      ∀ error, generate e = .error error → error.Possible := by
  have hshaped := shaped_of_parseSource h
  refine ⟨hshaped, fun error => hshaped.possible_of_mem_violations, ?_⟩
  intro error herror
  exact hshaped.possible_of_mem_violations (mem_violations_of_generate herror)

/-- A text with comments, an empty block, a loop inside an else part, and three
    things that are wrong. -/
def troubled : String :=
  "// start\nx = @unit.x % 2; if x \x7b \x7d else " ++
  "\x7b while not b.@on \x7b b.on = f(x) // again\n \x7d \x7d"

/-- The tree of that text. -/
def troubledTree : Expr :=
  .seq (.seq (.comment "start") (.assign "x" (.binary "%" (.sensor "@unit" "@x") (.num "2"))))
    (.branch (.var "x") .nop
      (.loop (.unary "not" (.sensor "b" "@on")) (.control "on" "b" (.call "f" [.var "x"]))))

theorem troubled_shaped :
    parseSource troubled = .ok troubledTree ∧ Shaped .block troubledTree ∧
      generate troubledTree = .error (.unknownBinary "%") ∧
        LoweringError.Possible (.unknownBinary "%") := by
  have hparse : parseSource troubled = .ok troubledTree := by decide +kernel
  have hgenerate : generate troubledTree = .error (.unknownBinary "%") := rfl
  obtain ⟨hshaped, _, hpossible⟩ := parseSource_shaped hparse
  exact ⟨hparse, hshaped, hgenerate, hpossible _ hgenerate⟩

end Mlog
