import Mlog.Proofs.Script

/-! # Every parse comes to its end

    Whatever the tokens are, the scripts of the grammar have runs, and these give
    what the parsers give.  Each round of a repetition moves past a token, since the
    list ends in an end of file that no rule moves past; so the bound that the parsers
    have for repetitions is never met.  Each level of nesting has a number, and all
    calls come back to the number that they started from.

    * `ParseState.Closed`, `Progress`: why repetitions end.
    * `Enacts d script p`: from the depth `d`, the script has a run, which gives what
      the parser gives and comes back to `d`.
    * `EnactsInner`: the parsers of a level, at the depth of that level. -/

namespace Mlog

open Script (act invoke nested repeated)

/-! ## Section 1: Progress -/

namespace ParseState

/-- The last token is the end of the file. -/
def Closed (s : ParseState) : Prop := s.lastToken.value = .eof

theorem remaining_ne_nil (s : ParseState) : s.remaining ≠ [] := List.cons_ne_nil _ _

theorem lastToken_eq (s : ParseState) : s.lastToken = s.remaining.getLast s.remaining_ne_nil :=
  (List.getLast_eq_getLastD s.remaining_ne_nil).symm

variable {s s' : ParseState}

theorem Closed.later (h : s.Closed) (hlater : s'.remaining <:+ s.remaining) : s'.Closed := by
  unfold Closed at h ⊢
  rw [lastToken_eq] at h ⊢
  rwa [hlater.getLast s'.remaining_ne_nil]

/-- There is a token behind each one that is not the end of the file. -/
theorem Closed.length_advance_lt (h : s.Closed) (hcurrent : s.current.value ≠ .eof) :
    s.advance.ahead.length < s.ahead.length := by
  unfold ParseState.advance
  cases hahead : s.ahead with
  | nil =>
    unfold Closed lastToken at h
    rw [hahead] at h
    exact absurd h hcurrent
  | cons t ts => simp

end ParseState

/-- Tokens that are behind the cursor stay behind it. -/
theorem sticky_remaining (tokens : List (Located Token)) :
    Sticky .all fun s => s.remaining <:+ tokens :=
  { advance := fun h => (ParseState.Goes.advance _).remaining.trans h
    skipAll := fun token h => (ParseState.Goes.skipAll _ token).remaining.trans h
    skipComments := fun h => h
    report := fun {s} fault span _ h => by
      unfold ParseState.report
      split <;> exact h
    abort := fun h => (ParseState.Goes.abort _).remaining.trans h }

/-- A round of a repetition moves past a token if it is not the last one. -/
def Progress {α : Type} (round : Parse (Option α)) : Prop :=
  ∀ s, s.Closed → (round s).1.isSome = true → (round s).2.ahead.length < s.ahead.length

/-- Moving past a token that is not the end of the file is progress, whatever is done
    then. -/
theorem ParseState.Closed.progress {α : Type} {s : ParseState} (h : s.Closed)
    (hcurrent : s.current.value ≠ .eof) (p : Parse α) [hp : Keeps p] :
    (p s.advance).2.ahead.length < s.ahead.length := by
  have hlt := h.length_advance_lt hcurrent
  have hle := hp.keeps (sticky_ahead s.advance.ahead.length) (Nat.le_refl _)
  omega

theorem Progress.eat {α : Type} {token : Token} {f : Bool → Parse (Option α)}
    (htoken : token ≠ .eof) (hfound : Keeps (f true)) (hmissing : ∀ s, (f false s).1 = none) :
    Progress (Parse.eat token >>= f) := by
  intro s hclosed hsome
  rw [Parse.eat_bind] at hsome ⊢
  by_cases hcurrent : s.current.value = token
  · rw [if_pos hcurrent]
    exact hclosed.progress (hcurrent ▸ htoken) (f true)
  · rw [if_neg hcurrent, hmissing] at hsome
    exact absurd hsome (by simp)

/-! ## Section 2: Enacting a parser -/

/-- The depth is within its bounds, and calls come back to the depth they started from. -/
def Event.Balanced : Event → Prop
  | call _ before after => after.depth = before.depth ∧ before.depth ≤ nestingLimit
  | enter depth => depth ≤ nestingLimit + 1
  | leave depth => 0 < depth

/-- At a depth, a script does what a parser does. -/
structure Enacts {α : Type} (d : Nat) (script : Script α) (p : Parse α) : Prop where
  run : ∀ s, s.Closed →
    ∃ t, Runs script ⟨s, d⟩ t (p s).1 ⟨(p s).2, d⟩ ∧ ∀ e ∈ t, e.Balanced

namespace Enacts

variable {α β : Type} {d : Nat} {script : Script α} {p : Parse α}

theorem pure (a : α) : Enacts d (Pure.pure a) (Pure.pure a) :=
  ⟨fun s _ => ⟨[], .done a ⟨s, d⟩, by simp⟩⟩

theorem bind {f : α → Script β} {g : α → Parse β} (h : Enacts d script p)
    (hf : ∀ a, Enacts d (f a) (g a)) : Enacts d (script >>= f) (p >>= g) := by
  constructor
  intro s hclosed
  obtain ⟨t, hrun, ht⟩ := h.run s hclosed
  obtain ⟨u, hrun', hu⟩ := (hf (p s).1).run (p s).2 (hclosed.later hrun.goes.1.remaining)
  exact ⟨t ++ u, hrun.andThen hrun', List.forall_mem_append.mpr ⟨ht, hu⟩⟩

theorem act (mv : Move α) : Enacts d (act mv) mv.run :=
  ⟨fun _ _ => ⟨[], .move (.done _ _), by simp⟩⟩

/-- A move, and then going on. -/
theorem move {mv : Move α} {f : α → Script β} {g : α → Parse β}
    (hf : ∀ a, Enacts d (f a) (g a)) : Enacts d (Script.act mv >>= f) (mv.run >>= g) := by
  constructor
  intro s hclosed
  obtain ⟨t, hrun, ht⟩ := (hf (mv.run s).1).run (mv.run s).2 (hclosed.later (mv.goes s).remaining)
  exact ⟨t, .move hrun, ht⟩

/-- A token that may be there or not, and then going on. -/
theorem eatOptional {token : Token} {f : Script β} {g : Unit → Parse β} (hf : Enacts d f (g ())) :
    Enacts d (Script.act (.eat token) >>= fun _ => f)
      (Functor.discard (Parse.eat token) >>= g) := by
  have hdiscard : (Functor.discard (Parse.eat token) >>= g) =
      (Parse.eat token >>= fun _ => g ()) := rfl
  rw [hdiscard]
  exact move fun _ => hf

/-- Counting the tokens ahead, and then going on. -/
theorem countAhead {f : Nat → Script β} {g : ParseState → Parse β}
    (hf : ∀ s : ParseState, Enacts d (f s.ahead.length) (g s)) :
    Enacts d (Script.act .countAhead >>= f) (get >>= g) := by
  constructor
  intro s hclosed
  obtain ⟨t, hrun, ht⟩ := (hf s).run s hclosed
  exact ⟨t, .move hrun, ht⟩

theorem ite {c : Prop} [Decidable c] {script' : Script α} {p' : Parse α}
    (h : c → Enacts d script p) (h' : ¬c → Enacts d script' p') :
    Enacts d (if c then script else script') (if c then p else p') := by
  split
  · exact h ‹_›
  · exact h' ‹_›

/-- A rule that is called does what its script does. -/
theorem call {r : Routine α} (hd : d ≤ nestingLimit) (h : Enacts d r.body p) :
    Enacts d (invoke r) p := by
  constructor
  intro s hclosed
  obtain ⟨t, hrun, ht⟩ := h.run s hclosed
  refine ⟨.call r ⟨s, d⟩ ⟨(p s).2, d⟩ :: (t ++ []), .call hrun (.done _ _), ?_⟩
  rw [List.append_nil]
  exact List.forall_mem_cons.mpr ⟨⟨rfl, hd⟩, ht⟩

/-- Within the limit, a call one level further in is made at the next depth. -/
theorem nested {r : Routine α} {stopgap : α} (hd : d < nestingLimit)
    (h : Enacts (d + 1) (invoke r) p) : Enacts d (nested r stopgap) p := by
  constructor
  intro s hclosed
  obtain ⟨t, hrun, ht⟩ := h.run s hclosed
  have hwithin : decide (d + 1 ≤ nestingLimit) = true := decide_eq_true hd
  have henter : (⟨s, d⟩ : Moment).enter = ⟨s, d + 1⟩ := by
    unfold Moment.enter
    rw [if_pos (show d + 1 ≤ nestingLimit from hd)]
  refine ⟨.enter (d + 1) :: (t ++ [.leave (d + 1)]), .enter ?_, ?_⟩
  · rw [henter, hwithin]
    exact hrun.andThen (.leave (.done _ _))
  · rw [List.forall_mem_cons, List.forall_mem_append]
    refine ⟨?_, ht, List.forall_mem_singleton.mpr (Nat.succ_pos d)⟩
    show d + 1 ≤ nestingLimit + 1
    omega

/-- At the limit, the parse is given up. -/
theorem giveUp (r : Routine α) (stopgap : α) :
    Enacts nestingLimit (Script.nested r stopgap) (Grammar.giveUp stopgap) := by
  constructor
  intro s _
  have hbeyond : decide (nestingLimit + 1 ≤ nestingLimit) = false := by decide
  have henter : (⟨s, nestingLimit⟩ : Moment).enter = ⟨s.abort, nestingLimit + 1⟩ := by
    unfold Moment.enter
    rw [if_neg (show ¬ nestingLimit + 1 ≤ nestingLimit by decide)]
  refine ⟨[.enter (nestingLimit + 1), .leave (nestingLimit + 1)], .enter ?_, ?_⟩
  · rw [henter, hbeyond]
    exact .leave (.done _ _)
  · rw [List.forall_mem_cons, List.forall_mem_singleton]
    exact ⟨Nat.le_refl _, Nat.succ_pos _⟩

/-- Rounds that move past a token each come to an end. -/
theorem iterate {round : α → Script (Option α)} {step : α → Parse (Option α)}
    (hround : ∀ a, Enacts d (round a) (step a)) (hprogress : ∀ a, Progress (step a)) (a : α) :
    Enacts d (repeated round a) (Parse.iterate step a) := by
  constructor
  intro s
  fun_induction Parse.iterate step a s with
  | case1 a s s' hstep =>
    intro hclosed
    obtain ⟨t, hrun, ht⟩ := (hround a).run s hclosed
    rw [hstep] at hrun
    refine ⟨t ++ [], .lastRound hrun (.done _ _), ?_⟩
    rwa [List.append_nil]
  | case2 a s b s' hstep _ ih =>
    intro hclosed
    obtain ⟨t, hrun, ht⟩ := (hround a).run s hclosed
    rw [hstep] at hrun
    obtain ⟨u, hothers, hu⟩ := ih (hclosed.later hrun.goes.1.remaining)
    exact ⟨t ++ u, .oneRound hrun hothers, List.forall_mem_append.mpr ⟨ht, hu⟩⟩
  -- the round would have stood still
  | case3 a s b s' hstep hstuck =>
    intro hclosed
    have hlt := hprogress a s hclosed
    rw [hstep] at hlt
    exact absurd (hlt rfl) hstuck

end Enacts

/-! ## Section 3: The rules of one level -/

/-- At a depth, the calls one level further in do what the parsers of a level do. -/
structure EnactsInner (d : Nat) (inner : Inner) : Prop where
  within : d ≤ nestingLimit
  expr : Enacts d (invoke .expr) inner.expr
  statements : Enacts d (nested (.statements (.symbol .rbrace)) []) inner.statements
  rightOperand : ∀ power, Enacts d (nested (.binary power) .nop) (inner.rightOperand power)
  negated : Enacts d (nested .unary .nop) inner.negated
  elseIf : Enacts d (nested .branch .nop) inner.elseIf

namespace Grammar

variable {d : Nat} {inner : Inner} [KeepsInner inner]

omit [KeepsInner inner] in
theorem enacts_block (h : EnactsInner d inner) : Enacts d (invoke .block) (block inner) := by
  apply Enacts.call h.within
  apply Enacts.move
  intro _
  apply h.statements.bind
  intro body
  apply Enacts.move
  intro _
  exact .pure _

theorem enacts_property (hd : d ≤ nestingLimit) : Enacts d (invoke .property) property := by
  apply Enacts.call hd
  apply Enacts.eatOptional
  apply Enacts.move
  intro name
  exact .pure _

theorem enacts_builtin (hd : d ≤ nestingLimit) : Enacts d (invoke .builtin) builtin := by
  apply Enacts.call hd
  apply Enacts.move
  intro name
  apply Enacts.move
  intro found
  apply Enacts.ite
  · intro _
    apply (enacts_property hd).bind
    intro property
    exact .pure _
  · exact fun _ => .pure _

omit [KeepsInner inner] in
theorem enacts_nextArgument (h : EnactsInner d inner) (args : List Expr) :
    Enacts d (Script.nextArgument args) (nextArgument inner args) := by
  apply Enacts.move
  intro found
  apply Enacts.ite
  · intro _
    apply h.expr.bind
    intro arg
    exact .pure _
  · exact fun _ => .pure _

theorem progress_nextArgument (args : List Expr) : Progress (nextArgument inner args) := by
  apply Progress.eat (by simp)
  · exact .bind
  · exact fun _ => rfl

theorem enacts_arguments (h : EnactsInner d inner) :
    Enacts d (invoke .arguments) (arguments inner) := by
  apply Enacts.call h.within
  apply Enacts.move
  intro found
  apply Enacts.ite
  · exact fun _ => .pure _
  · intro _
    apply h.expr.bind
    intro first
    apply (Enacts.iterate (enacts_nextArgument h) progress_nextArgument [first]).bind
    intro args
    apply Enacts.move
    intro _
    exact .pure _

theorem enacts_suffix (h : EnactsInner d inner) (name : String) :
    Enacts d (invoke (.suffix name)) (suffix inner name) := by
  apply Enacts.call h.within
  apply Enacts.move
  intro t
  -- a name alone, with arguments, with an index, or with a property
  cases t with
  | symbol sign =>
    cases sign with
    | lparen =>
      apply Enacts.move
      intro _
      apply (enacts_arguments h).bind
      intro args
      exact .pure _
    | lbracket =>
      apply Enacts.move
      intro _
      apply h.expr.bind
      intro address
      apply Enacts.move
      intro _
      exact .pure _
    | dot =>
      apply Enacts.move
      intro _
      apply (enacts_property h.within).bind
      intro property
      exact .pure _
    | _ => exact .pure _
  | _ => exact .pure _

omit [KeepsInner inner] in
theorem enacts_branch (h : EnactsInner d inner) : Enacts d (invoke .branch) (branch inner) := by
  apply Enacts.call h.within
  apply Enacts.move
  intro _
  apply h.expr.bind
  intro cond
  apply (enacts_block h).bind
  intro yes
  apply Enacts.move
  intro found
  apply Enacts.ite
  · intro _
    apply Enacts.move
    intro t
    -- `else if` is a branch one level deeper, and `else` alone a block
    apply Enacts.ite
    · intro _
      apply h.elseIf.bind
      intro no
      exact .pure _
    · intro _
      apply (enacts_block h).bind
      intro no
      exact .pure _
  · exact fun _ => .pure _

omit [KeepsInner inner] in
theorem enacts_nextArm (h : EnactsInner d inner) (arms : List (Expr × Expr)) :
    Enacts d (Script.nextArm arms) (nextArm inner arms) := by
  apply Enacts.move
  intro _
  apply Enacts.move
  intro found
  apply Enacts.ite
  · intro _
    apply h.expr.bind
    intro pattern
    apply (enacts_block h).bind
    intro body
    exact .pure _
  · exact fun _ => .pure _

theorem progress_nextArm (arms : List (Expr × Expr)) : Progress (nextArm inner arms) := by
  intro s hclosed
  -- dropping comments moves past no token
  have heat : Progress (do
      if ← Parse.eat (.keyword .when_) then
        let pattern ← inner.expr
        let body ← block inner
        return some ((pattern, body) :: arms)
      else
        return none) := by
    apply Progress.eat (by simp)
    · exact .bind
    · exact fun _ => rfl
  exact heat s.skipComments hclosed

omit [KeepsInner inner] in
theorem enacts_otherwise (h : EnactsInner d inner) :
    Enacts d Script.otherwise (otherwise inner) := by
  apply Enacts.move
  intro found
  apply Enacts.ite
  · exact fun _ => enacts_block h
  · exact fun _ => .pure _

theorem enacts_closeSelect : Enacts d Script.closeSelect closeSelect := by
  apply Enacts.move
  intro _
  apply Enacts.move
  intro found
  apply Enacts.ite
  · exact fun _ => .pure _
  · intro _
    apply Enacts.move
    intro t
    exact .act _

theorem enacts_select (h : EnactsInner d inner) : Enacts d (invoke .select) (select inner) := by
  apply Enacts.call h.within
  apply Enacts.move
  intro _
  apply h.expr.bind
  intro subject
  apply Enacts.move
  intro _
  apply (Enacts.iterate (enacts_nextArm h) progress_nextArm []).bind
  intro arms
  apply (enacts_otherwise h).bind
  intro other
  apply enacts_closeSelect.bind
  intro _
  exact .pure _

theorem enacts_primary (h : EnactsInner d inner) :
    Enacts d (invoke .primary) (primary inner) := by
  apply Enacts.call h.within
  apply Enacts.move
  intro t
  -- a literal is one token
  have hliteral : ∀ e : Expr,
      Enacts d (do act .advance; return e) (do Parse.advance; return e) := by
    intro e
    apply Enacts.move
    intro _
    exact .pure e
  -- no expression starts here
  have hnone : Enacts d
      (do act (.report (.expectedExpression t)); act .advance; return Expr.null)
      (do Parse.report (.expectedExpression t); Parse.advance; return Expr.null) := by
    apply Enacts.move
    intro _
    apply Enacts.move
    intro _
    exact .pure _
  cases t with
  | number text => exact hliteral _
  | str text => exact hliteral _
  | ident name =>
    apply Enacts.move
    intro _
    exact enacts_suffix h name
  | eof => exact hnone
  | keyword word =>
    cases word with
    | true_ => exact hliteral _
    | false_ => exact hliteral _
    | null_ => exact hliteral _
    | if_ => exact enacts_branch h
    | case_ => exact enacts_select h
    | while_ =>
      apply Enacts.move
      intro _
      exact .pure _
    | _ => exact hnone
  | symbol sign =>
    cases sign with
    | atSign =>
      apply Enacts.move
      intro _
      exact enacts_builtin h.within
    | lparen =>
      apply Enacts.move
      intro _
      apply h.expr.bind
      intro e
      apply Enacts.move
      intro _
      exact .pure e
    | rbrace =>
      apply Enacts.move
      intro _
      exact .pure _
    | _ => exact hnone

theorem enacts_negation (h : EnactsInner d inner) :
    Enacts d (invoke .negation) (negation inner) := by
  apply Enacts.call h.within
  apply Enacts.move
  intro t
  -- both spellings of the operator go on in the same way
  have hnegated : ∀ op : String, Enacts d
      (do act .advance; return Expr.unary op (← nested .unary .nop))
      (do Parse.advance; return Expr.unary op (← inner.negated)) := by
    intro op
    apply Enacts.move
    intro _
    apply h.negated.bind
    intro e
    exact .pure _
  cases t with
  | keyword word =>
    cases word with
    | not_ => exact hnegated "not"
    | _ => exact enacts_primary h
  | symbol sign =>
    cases sign with
    | bang => exact hnegated "!"
    | _ => exact enacts_primary h
  | _ => exact enacts_primary h

theorem enacts_unary (h : EnactsInner d inner) : Enacts d (invoke .unary) (unary inner) := by
  apply Enacts.call h.within
  apply Enacts.move
  intro t
  apply Enacts.ite
  · intro _
    apply Enacts.move
    intro start
    apply Enacts.move
    intro _
    apply Enacts.move
    intro u
    -- a minus sign stands before numbers only; a run of them is one fault
    have hfault : Enacts d
        (do
          act (.reportAt .negation start)
          act (.skipAll (.symbol .minus))
          invoke .negation)
        (do
          Parse.reportAt .negation start
          modify (·.skipAll (.symbol .minus))
          negation inner) := by
      apply Enacts.move
      intro _
      apply Enacts.move
      intro _
      exact enacts_negation h
    cases u with
    | number text =>
      apply Enacts.move
      intro _
      exact .pure _
    | _ => exact hfault
  · exact fun _ => enacts_negation h

omit [KeepsInner inner] in
theorem enacts_nextOperation (h : EnactsInner d inner) (power : Nat) (left : Expr) :
    Enacts d (Script.nextOperation power left) (nextOperation inner power left) := by
  apply Enacts.move
  intro t
  cases t.binaryOperator? with
  | none => exact .pure _
  | some operator =>
    obtain ⟨op, binding⟩ := operator
    apply Enacts.ite
    · exact fun _ => .pure _
    · intro _
      apply Enacts.move
      intro _
      apply (h.rightOperand binding.right).bind
      intro right
      exact .pure _

/-- The end of the file is no operator. -/
theorem progress_nextOperation (power : Nat) (left : Expr) :
    Progress (nextOperation inner power left) := by
  intro s hclosed hsome
  unfold nextOperation at hsome ⊢
  rw [Parse.peek_bind] at hsome ⊢
  cases hoperator : s.current.value.binaryOperator? with
  | none =>
    rw [hoperator] at hsome
    exact absurd hsome Bool.false_ne_true
  | some operator =>
    obtain ⟨op, binding⟩ := operator
    -- at an operator there is a token to move past
    have hcurrent : s.current.value ≠ .eof := by
      intro heof
      rw [heof] at hoperator
      exact absurd hoperator nofun
    rw [hoperator] at hsome
    by_cases hlt : binding.left < power
    · simp only [if_pos hlt] at hsome
      exact absurd hsome Bool.false_ne_true
    · simp only [if_neg hlt]
      exact hclosed.progress hcurrent (do
        return some (Expr.binary op left (← inner.rightOperand binding.right)))

theorem enacts_binary (h : EnactsInner d inner) (power : Nat) :
    Enacts d (invoke (.binary power)) (binary inner power) := by
  apply Enacts.call h.within
  apply (enacts_unary h).bind
  intro first
  exact .iterate (enacts_nextOperation h power) (progress_nextOperation power) first

theorem enacts_assign (hd : d ≤ nestingLimit) (target : Expr) (span : Span) (value : Expr) :
    Enacts d (invoke (.assign target span value)) (assign target span value) := by
  apply Enacts.call hd
  have hfault : Enacts d
      (do act (.reportAt (.badTarget target) span); return value)
      (do Parse.reportAt (.badTarget target) span; return value) := by
    apply Enacts.move
    intro _
    exact .pure _
  cases target with
  | var | builtin | load | sensor => exact .pure _
  | _ => exact hfault

theorem enacts_assignAll (hd : d ≤ nestingLimit) (targets : List (Expr × Span)) (value : Expr) :
    Enacts d (Script.assignAll targets value)
      (targets.foldlM (fun value target => assign target.1 target.2 value) value) := by
  induction targets generalizing value with
  | nil => exact .pure _
  | cons target targets ih =>
    rw [List.foldlM_cons]
    exact (enacts_assign hd target.1 target.2 value).bind ih

theorem enacts_link (h : EnactsInner d inner) (targets : List (Expr × Span)) :
    Enacts d (Script.link targets) (link inner targets) := by
  apply Enacts.move
  intro start
  apply (enacts_binary h 0).bind
  intro e
  exact .pure _

theorem enacts_nextAssignment (h : EnactsInner d inner) (chain : Chain) :
    Enacts d (Script.nextAssignment chain) (nextAssignment inner chain) := by
  apply Enacts.move
  intro t
  apply Enacts.ite
  · intro _
    apply Enacts.move
    intro span
    apply Enacts.move
    intro _
    apply (enacts_link h _).bind
    intro next
    exact .pure _
  · exact fun _ => .pure _

theorem progress_nextAssignment (chain : Chain) : Progress (nextAssignment inner chain) := by
  intro s hclosed hsome
  unfold nextAssignment at hsome ⊢
  rw [Parse.peek_bind] at hsome ⊢
  by_cases hassign : s.current.value = .symbol .assign
  · rw [if_pos hassign]
    exact hclosed.progress (by simp [hassign]) (do
      let span := chain.start.merge s.current.span
      return some (← link inner ((chain.last, span) :: chain.targets)))
  · rw [if_neg hassign] at hsome
    exact absurd hsome Bool.false_ne_true

theorem enacts_assignment (h : EnactsInner d inner) :
    Enacts d (invoke .assignment) (assignment inner) := by
  apply Enacts.call h.within
  apply (enacts_link h []).bind
  intro first
  apply (Enacts.iterate (enacts_nextAssignment h) progress_nextAssignment first).bind
  intro chain
  exact enacts_assignAll h.within chain.targets chain.last

omit [KeepsInner inner] in
theorem enacts_loop (h : EnactsInner d inner) : Enacts d (invoke .loop) (loop inner) := by
  apply Enacts.call h.within
  apply Enacts.move
  intro _
  apply h.expr.bind
  intro cond
  apply (enacts_block h).bind
  intro body
  exact .pure _

omit [KeepsInner inner] in
theorem enacts_statement (h : EnactsInner d inner) :
    Enacts d (invoke .statement) (statement inner) := by
  apply Enacts.call h.within
  have hbare : Enacts d Script.bareStatement (bareStatement inner) := by
    apply Enacts.move
    intro t
    apply Enacts.ite
    · exact fun _ => enacts_loop h
    · exact fun _ => h.expr
  apply hbare.bind
  intro e
  apply Enacts.eatOptional
  exact .pure e

omit [KeepsInner inner] in
theorem enacts_nextStatement (h : EnactsInner d inner) (closing : Token) (stmts : List Expr) :
    Enacts d (Script.nextStatement closing stmts) (nextStatement inner closing stmts) := by
  apply Enacts.move
  intro token
  apply Enacts.ite
  · intro _
    apply Enacts.move
    intro _
    exact .pure _
  · intro _
    apply Enacts.move
    intro comments
    apply Enacts.countAhead
    intro s
    apply (enacts_statement h).bind
    intro e
    apply Enacts.move
    intro _
    exact .pure _

/-- A statement that reads nothing is recovered from by moving past a token. -/
theorem progress_nextStatement (closing : Token) (stmts : List Expr) :
    Progress (nextStatement inner closing stmts) := by
  intro s hclosed hsome
  unfold nextStatement at hsome ⊢
  rw [Parse.peek_bind] at hsome ⊢
  by_cases hend : s.current.value = closing ∨ s.current.value = .eof
  · rw [if_pos hend] at hsome
    exact absurd hsome Bool.false_ne_true
  · rw [if_neg hend]
    have hgoes : (statement inner s.skipComments).2.remaining <:+ s.remaining :=
      keeps_statement.keeps (sticky_remaining s.remaining) (List.suffix_refl _)
    show (recover s.ahead.length (statement inner s.skipComments).2).2.ahead.length < s.ahead.length
    generalize (statement inner s.skipComments).2 = s' at hgoes
    show (if s'.ahead.length = s.ahead.length then s'.advance else s').ahead.length < s.ahead.length
    by_cases hstuck : s'.ahead.length = s.ahead.length
    · -- nothing was read, so the token under the cursor is not the end of the file
      have hsame : s'.remaining = s.remaining := hgoes.eq_of_length (by
        simp only [ParseState.remaining, List.length_cons, hstuck])
      obtain ⟨hcurrent, _⟩ := List.cons.inj hsame
      have hclosed' : s'.Closed := hclosed.later hgoes
      rw [if_pos hstuck, ← hstuck]
      apply hclosed'.length_advance_lt
      rw [hcurrent]
      exact fun heof => hend (.inr heof)
    · rw [if_neg hstuck]
      have hle := hgoes.length_le
      simp only [ParseState.remaining, List.length_cons] at hle
      omega

theorem enacts_statements (h : EnactsInner d inner) (closing : Token) :
    Enacts d (invoke (.statements closing)) (statements inner closing) := by
  apply Enacts.call h.within
  apply (Enacts.iterate (enacts_nextStatement h closing) (progress_nextStatement closing) []).bind
  intro stmts
  exact .pure _

/-! ## Section 4: All levels -/

/-- The parsers of a level are enacted at the depth that leaves so many levels. -/
theorem enactsInner_level (n d : Nat) (hd : d + n = nestingLimit) :
    EnactsInner d (level n) := by
  induction n generalizing d with
  | zero =>
    -- no levels are left: every parser gives up at once
    obtain rfl : d = nestingLimit := hd
    exact
      { within := Nat.le_refl _
        expr := .call (Nat.le_refl _) (.giveUp _ _)
        statements := .giveUp _ _
        rightOperand := fun _ => .giveUp _ _
        negated := .giveUp _ _
        elseIf := .giveUp _ _ }
  | succ n ih =>
    have hlt : d < nestingLimit := by omega
    have hinner := ih (d + 1) (by omega)
    exact
      { within := Nat.le_of_lt hlt
        expr := .call (Nat.le_of_lt hlt) (.nested hlt (enacts_assignment hinner))
        statements := .nested hlt (enacts_statements hinner _)
        rightOperand := fun power => .nested hlt (enacts_binary hinner power)
        negated := .nested hlt (enacts_unary hinner)
        elseIf := .nested hlt (enacts_branch hinner) }

end Grammar

/-! ## Section 5: Whole parses -/

/-- The cursor is at a token of a list: the one with this number. -/
def ParseState.At (tokens : List (Located Token)) (i : Nat) (s : ParseState) : Prop :=
  i < tokens.length ∧ s.remaining = tokens.drop i

/-- A call of a rule keeps the state of the parse in order. -/
structure Orderly (tokens : List (Located Token)) (before after : Moment) : Prop where
  /-- The cursor stays in the list and does not move back. -/
  position : ∃ i j, i ≤ j ∧ before.state.At tokens i ∧ after.state.At tokens j
  /-- The depth comes back to what it was. -/
  depth : after.depth = before.depth ∧ before.depth ≤ nestingLimit
  /-- Faults are noted after those that there are. -/
  faults : before.state.faults.reverse <+: after.state.faults.reverse
  /-- Once the parse was given up, no more faults are noted. -/
  aborted : before.state.aborted = true →
    after.state.aborted = true ∧ after.state.faults = before.state.faults
  /-- A parse that was given up is at the last token, and the last fault is the nesting. -/
  settled : before.state.Settled ∧ after.state.Settled

/-- What happens during a parse keeps its state in order. -/
def Event.Orderly (tokens : List (Located Token)) : Event → Prop
  | call _ before after => Mlog.Orderly tokens before after
  | enter depth => depth ≤ nestingLimit + 1
  | leave depth => 0 < depth

theorem ParseState.exists_at {tokens : List (Located Token)} {s : ParseState}
    (h : s.remaining <:+ tokens) : s.At tokens (tokens.length - s.remaining.length) := by
  have hle := h.length_le
  have hpos := List.length_pos_iff.mpr s.remaining_ne_nil
  refine ⟨by omega, ?_⟩
  exact List.suffix_iff_eq_drop.mp h

theorem Event.orderly {tokens : List (Located Token)} {s : ParseState} {e : Event}
    (htokens : s.remaining = tokens) (hsettled : s.Settled) (hpassed : e.Passed s)
    (hbalanced : e.Balanced) : e.Orderly tokens := by
  cases e with
  | enter depth => exact hbalanced
  | leave depth => exact hbalanced
  | call r before after =>
    obtain ⟨hbefore, hafter⟩ := hpassed
    have hwithin : before.state.remaining <:+ tokens := htokens ▸ hbefore.remaining
    refine ⟨?_, hbalanced, List.reverse_prefix.mpr hafter.faults, hafter.aborted,
      hbefore.settled hsettled, hafter.settled (hbefore.settled hsettled)⟩
    have hle := hafter.remaining.length_le
    exact ⟨_, _, Nat.sub_le_sub_left hle _, ParseState.exists_at hwithin,
      ParseState.exists_at (hafter.remaining.trans hwithin)⟩

namespace ParseState

/-- No fault before the last one is the nesting. -/
theorem Settled.ordinary {s : ParseState} (h : s.Settled) :
    ∀ f ∈ s.faults.reverse.dropLast, f.value ≠ .tooDeep := by
  rw [List.dropLast_reverse]
  unfold Settled at h
  cases haborted : s.aborted with
  | true =>
    rw [haborted, if_pos rfl] at h
    obtain ⟨_, f, fs, hfaults, _, hordinary⟩ := h
    rw [hfaults, List.tail_cons]
    exact fun g hg => hordinary g (List.mem_reverse.mp hg)
  | false =>
    rw [haborted, if_neg Bool.false_ne_true] at h
    exact fun g hg => h g (List.mem_of_mem_tail (List.mem_reverse.mp hg))

variable (tokens : List (Located Token)) (comments : List Comment)

/-- A closed list ends in the end of a file. -/
theorem getLast?_closed : ∃ last, (closed tokens).getLast? = some last ∧ last.value = .eof := by
  unfold closed
  cases hlast : tokens.getLast? with
  | none => exact ⟨_, rfl, rfl⟩
  | some t =>
    by_cases heof : t.value = .eof
    · exact ⟨t, by simp [heof, hlast], heof⟩
    · exact ⟨endOfFile t.span.stop, by simp [heof], rfl⟩

theorem remaining_start : (start tokens comments).remaining = closed tokens := by
  obtain ⟨last, hlast, _⟩ := getLast?_closed tokens
  unfold start remaining
  cases hclosed : closed tokens with
  | nil => simp [hclosed] at hlast
  | cons t ts => rfl

theorem closed_start : (start tokens comments).Closed := by
  obtain ⟨last, hlast, heof⟩ := getLast?_closed tokens
  rw [← remaining_start tokens comments,
    List.getLast?_eq_some_getLast (remaining_ne_nil _)] at hlast
  unfold Closed
  rw [lastToken_eq, Option.some.inj hlast, heof]

theorem settled_start : (start tokens comments).Settled := by
  show ∀ f ∈ [], _
  exact fun _ hf => absurd hf List.not_mem_nil

end ParseState

/-- The run of a parse of a whole program. -/
def ProgramRuns (tokens : List (Located Token)) (comments : List Comment) :
    List Event → List Expr → Moment → Prop :=
  Runs (invoke (.statements .eof)) ⟨.start tokens comments, 0⟩

end Mlog
