import Mlog.Proofs.Commented
import Mlog.Proofs.Steps

/-! # Parsing with and without comments

    The comments of a program are read beside its tokens.  A parse with
    comments and a parse of the same tokens without any go side by side: their
    cursors move together, they note faults at the same places, and they give
    the same trees but for comments before statements.

    * `ParseState.Twin`: two such parses are at the same point.
    * `Parallel p q R`: from twins, `p` and `q` go to twins again.  `R` relates
      the two results and the comments that were passed meanwhile.
    * `Alike`: the relation of the trees.  The comments that a tree has are some
      of those that were passed, in their order.

    A comparison with the parse without comments also compares any two parses
    with each other. -/

namespace Mlog

/-! ## Section 1: Twins -/

/-- A parse and a parse without comments are at the same point. -/
structure ParseState.Twin (s bare : ParseState) : Prop where
  current : s.current = bare.current
  ahead : s.ahead = bare.ahead
  aborted : s.aborted = bare.aborted
  spans : s.faults.map Located.span = bare.faults.map Located.span
  comments : bare.comments = []

namespace ParseState.Twin

variable {s bare : ParseState}

theorem advance (h : s.Twin bare) : s.advance.Twin bare.advance := by
  obtain ⟨hcurrent, hahead, haborted, hspans, hcomments⟩ := h
  unfold ParseState.advance
  rw [← hahead]
  split
  · exact ⟨hcurrent, hahead, haborted, hspans, hcomments⟩
  · exact ⟨rfl, rfl, haborted, hspans, hcomments⟩

/-- The faults may be different ones, but not their places. -/
theorem report (h : s.Twin bare) (fault fault' : SyntaxFault) (span : Span) :
    (s.report fault span).Twin (bare.report fault' span) := by
  unfold ParseState.report
  rw [← h.aborted]
  split
  · exact h
  · exact ⟨h.current, h.ahead, rfl, by simp [h.spans], h.comments⟩

theorem comments_report (s : ParseState) (fault : SyntaxFault) (span : Span) :
    (s.report fault span).comments = s.comments := by
  unfold ParseState.report
  split <;> rfl

theorem abort (h : s.Twin bare) : s.abort.Twin bare.abort := by
  have hreport := h.report .tooDeep .tooDeep s.current.span
  refine ⟨?_, rfl, rfl, ?_, ?_⟩
  · show s.ahead.getLastD s.current = bare.ahead.getLastD bare.current
    rw [h.ahead, h.current]
  · show (s.report .tooDeep s.current.span).faults.map Located.span =
      (bare.report .tooDeep bare.current.span).faults.map Located.span
    rw [← h.current]
    exact hreport.spans
  · exact (comments_report ..).trans h.comments

theorem skipAll (h : s.Twin bare) (token : Token) :
    (s.skipAll token).Twin (bare.skipAll token) ∧ (s.skipAll token).comments = s.comments := by
  have hgo : ∀ ahead current,
      (skipAll.go token s current ahead).Twin (skipAll.go token bare current ahead) ∧
        (skipAll.go token s current ahead).comments = s.comments := by
    intro ahead
    induction ahead with
    | nil => exact fun _ => ⟨⟨rfl, rfl, h.aborted, h.spans, h.comments⟩, rfl⟩
    | cons t ts ih =>
      intro current
      unfold skipAll.go
      split
      · exact ih t
      · exact ⟨⟨rfl, rfl, h.aborted, h.spans, h.comments⟩, rfl⟩
  unfold ParseState.skipAll
  rw [← h.ahead, ← h.current]
  exact hgo s.ahead s.current

theorem skipComments (h : s.Twin bare) : s.skipComments.Twin bare.skipComments := by
  rw [skipComments_of_nil h.comments]
  exact ⟨h.current, h.ahead, h.aborted, h.spans, h.comments⟩

end ParseState.Twin

/-! ## Section 2: Quiet steps -/

/-- A parser that does not look at comments: from twins it gives the same result
    and goes to twins, and no comment is passed. -/
class Quiet {α : Type} (p : Parse α) : Prop where
  quiet : ∀ {s bare : ParseState}, s.Twin bare →
    (p s).1 = (p bare).1 ∧ (p s).2.Twin (p bare).2 ∧ (p s).2.comments = s.comments

namespace Quiet

variable {α β : Type} {p q : Parse α}

instance pure (a : α) : Quiet (pure a : Parse α) := ⟨fun h => ⟨rfl, h, rfl⟩⟩

theorem ofBind {f : α → Parse β} (hp : Quiet p) (hf : ∀ a, Quiet (f a)) : Quiet (p >>= f) := by
  constructor
  intro s bare h
  obtain ⟨hvalue, htwin, hcomments⟩ := hp.quiet h
  have hlast := (hf (p s).1).quiet htwin
  show (f (p s).1 (p s).2).1 = (f (p bare).1 (p bare).2).1 ∧
    (f (p s).1 (p s).2).2.Twin (f (p bare).1 (p bare).2).2 ∧
    (f (p s).1 (p s).2).2.comments = s.comments
  rw [← hvalue, ← hcomments]
  exact hlast

instance bind {f : α → Parse β} [hp : Quiet p] [hf : ∀ a, Quiet (f a)] : Quiet (p >>= f) :=
  ofBind hp hf

instance discard [Quiet p] : Quiet (discard p) :=
  bind (f := fun _ => Pure.pure PUnit.unit)

instance ite {c : Prop} [Decidable c] [hp : Quiet p] [hq : Quiet q] :
    Quiet (if c then p else q) := by
  split
  · exact hp
  · exact hq

instance peek : Quiet Parse.peek := ⟨fun h => ⟨congrArg Located.value h.current, h, rfl⟩⟩

instance here : Quiet Parse.here := ⟨fun h => ⟨congrArg Located.span h.current, h, rfl⟩⟩

instance advance : Quiet Parse.advance :=
  ⟨fun h => ⟨rfl, h.advance, ParseState.comments_advance _⟩⟩

instance eat (token : Token) : Quiet (Parse.eat token) := by
  constructor
  intro s bare h
  have heat : ∀ s, Parse.eat token s =
      if s.current.value = token then (true, s.advance) else (false, s) := fun _ => rfl
  rw [heat, heat, ← h.current]
  split
  · exact ⟨rfl, h.advance, ParseState.comments_advance _⟩
  · exact ⟨rfl, h, rfl⟩

instance reportAt (fault : SyntaxFault) (span : Span) : Quiet (Parse.reportAt fault span) :=
  ⟨fun h => ⟨rfl, h.report _ _ _, ParseState.Twin.comments_report ..⟩⟩

instance report (fault : SyntaxFault) : Quiet (Parse.report fault) := by
  constructor
  intro s bare h
  refine ⟨rfl, ?_, ParseState.Twin.comments_report ..⟩
  show (s.report fault s.current.span).Twin (bare.report fault bare.current.span)
  rw [← h.current]
  exact h.report _ _ _

instance skipAll (token : Token) : Quiet (modify (·.skipAll token) : Parse Unit) :=
  ⟨fun h => ⟨rfl, h.skipAll token⟩⟩

instance expect (token : Token) : Quiet (Parse.expect token) := by
  unfold Parse.expect
  infer_instance

instance expectName : Quiet Parse.expectName := by
  apply ofBind peek
  intro t
  split <;> infer_instance

instance property : Quiet Grammar.property := by
  unfold Grammar.property
  infer_instance

instance recover (ahead : Nat) : Quiet (Grammar.recover ahead) := by
  constructor
  intro s bare h
  show () = () ∧ (if s.ahead.length = ahead then s.advance else s).Twin
      (if bare.ahead.length = ahead then bare.advance else bare) ∧
    (if s.ahead.length = ahead then s.advance else s).comments = s.comments
  rw [← h.ahead]
  split
  · exact ⟨rfl, h.advance, ParseState.comments_advance _⟩
  · exact ⟨rfl, h, rfl⟩

end Quiet

/-! ## Section 3: Parallel parsers -/

/-- Two parsers go from twins to twins, with results as `R` says, given the
    comments that the first one has passed. -/
structure Parallel {α : Type} (p q : Parse α) (R : List Comment → α → α → Prop) : Prop where
  run : ∀ {s bare : ParseState}, s.Twin bare → (p s).2.Twin (q bare).2 ∧
    ∃ used, s.comments = used ++ (p s).2.comments ∧ R used (p s).1 (q bare).1

namespace Parallel

variable {α β : Type} {p q : Parse α} {R S : List Comment → α → α → Prop}
  {T : List Comment → β → β → Prop}

theorem pure {a b : α} (h : R [] a b) : Parallel (pure a) (pure b) R :=
  ⟨fun htwin => ⟨htwin, [], rfl, h⟩⟩

theorem post (h : Parallel p q R) (hpost : ∀ used a b, R used a b → S used a b) :
    Parallel p q S := by
  constructor
  intro s bare htwin
  obtain ⟨htwin', used, hused, hR⟩ := h.run htwin
  exact ⟨htwin', used, hused, hpost _ _ _ hR⟩

/-- One parser after another. -/
theorem bind {f g : α → Parse β} (hp : Parallel p q R)
    (hf : ∀ used a b, R used a b → Parallel (f a) (g b) fun more => T (used ++ more)) :
    Parallel (p >>= f) (q >>= g) T := by
  constructor
  intro s bare htwin
  obtain ⟨htwin₁, used, hused, hR⟩ := hp.run htwin
  obtain ⟨htwin₂, more, hmore, hT⟩ := (hf _ _ _ hR).run htwin₁
  exact ⟨htwin₂, used ++ more, by rw [hused, hmore, List.append_assoc]; rfl, hT⟩

/-- A quiet step gives the same result on both sides. -/
theorem same [hp : Quiet p] : Parallel p p fun used a b => used = [] ∧ a = b := by
  constructor
  intro s bare htwin
  obtain ⟨hvalue, htwin', hcomments⟩ := hp.quiet htwin
  exact ⟨htwin', [], hcomments.symm, rfl, hvalue⟩

theorem quiet [Quiet p] (h : ∀ a, R [] a a) : Parallel p p R := by
  apply same.post
  rintro used a b ⟨rfl, rfl⟩
  exact h a

/-- After a quiet step both go on with the same result. -/
theorem after [Quiet p] {f g : α → Parse β} (hf : ∀ a, Parallel (f a) (g a) T) :
    Parallel (p >>= f) (p >>= g) T := by
  apply same.bind
  rintro used a b ⟨rfl, rfl⟩
  exact hf a

/-- Moving past a token if it is there, and then going on. -/
theorem eat {token : Token} {f g : Bool → Parse β} (hfound : Parallel (f true) (g true) T)
    (hmissing : Parallel (f false) (g false) T) :
    Parallel (Parse.eat token >>= f) (Parse.eat token >>= g) T := by
  apply after
  intro found
  cases found with
  | true => exact hfound
  | false => exact hmissing

/-- Faults of one place may be different ones. -/
theorem reportAt {f g : Unit → Parse β} (fault fault' : SyntaxFault) (span : Span)
    (h : Parallel (f ()) (g ()) T) :
    Parallel (Parse.reportAt fault span >>= f) (Parse.reportAt fault' span >>= g) T := by
  constructor
  intro s bare htwin
  have hlast := h.run (htwin.report fault fault' span)
  rwa [ParseState.Twin.comments_report] at hlast

/-- The comments that are skipped are passed. -/
theorem skipComments {f g : Unit → Parse β}
    (h : ∀ used, Parallel (f ()) (g ()) fun more => T (used ++ more)) :
    Parallel (Parse.skipComments >>= f) (Parse.skipComments >>= g) T := by
  have hskip : Parallel Parse.skipComments Parse.skipComments fun _ _ _ => True := by
    constructor
    intro s bare htwin
    exact ⟨htwin.skipComments, s.passedComments, List.takeWhile_append_dropWhile.symm, trivial⟩
  exact hskip.bind fun used _ _ _ => h used

/-- The comments that are taken are passed, and without comments there are none
    to take. -/
theorem takeComments {f g : List Comment → Parse β}
    (h : ∀ used, Parallel (f used) (g []) fun more => T (used ++ more)) :
    Parallel (Parse.takeComments >>= f) (Parse.takeComments >>= g) T := by
  have htake : Parallel Parse.takeComments Parse.takeComments
      fun used taken taken' => taken = used ∧ taken' = [] := by
    constructor
    intro s bare htwin
    refine ⟨htwin.skipComments, s.passedComments, List.takeWhile_append_dropWhile.symm, rfl, ?_⟩
    show bare.comments.takeWhile bare.isPassed = []
    rw [htwin.comments]
    rfl
  apply htake.bind
  rintro used taken taken' ⟨rfl, rfl⟩
  exact h taken

/-- A parser that is recovered from: both parses have as many tokens ahead
    before it, and as many after it. -/
theorem recover {f g : α → Parse β} (hp : Parallel p q R)
    (hf : ∀ used a b, R used a b → Parallel (f a) (g b) fun more => T (used ++ more)) :
    Parallel
      (do
        let ahead := (← get).ahead.length
        let a ← p
        Grammar.recover ahead
        f a)
      (do
        let ahead := (← get).ahead.length
        let a ← q
        Grammar.recover ahead
        g a) T := by
  have hget : Parallel (get : Parse ParseState) get
      fun used s bare => used = [] ∧ s.ahead = bare.ahead :=
    ⟨fun htwin => ⟨htwin, [], rfl, rfl, htwin.ahead⟩⟩
  apply hget.bind
  -- both parses count the same tokens ahead, so both pass one more or neither does
  rintro used s bare ⟨rfl, hahead⟩
  rw [hahead]
  apply hp.bind
  intro more a b hR
  exact .after fun _ => hf more a b hR

theorem giveUp {a b : α} (h : R [] a b) : Parallel (Grammar.giveUp a) (Grammar.giveUp b) R :=
  ⟨fun {s _} htwin => ⟨htwin.abort, [], (ParseState.Twin.comments_report s _ _).symm, h⟩⟩

/-- One round of a repetition: both end, or both go on. -/
def Round (I : List Comment → α → α → Prop) (used : List Comment) (a b : α) (more : List Comment) :
    Option α → Option α → Prop
  | none, none => I (used ++ more) a b
  | some a', some b' => I (used ++ more) a' b'
  | _, _ => False

/-- A repetition keeps the invariant of its rounds.  Both parses move past the
    same tokens, so they also end together when a round moves past none. -/
theorem iterate {step : α → Parse (Option α)} {I : List Comment → α → α → Prop}
    (hstep : ∀ used a b, I used a b → Parallel (step a) (step b) (Round I used a b))
    {used : List Comment} {a b : α} (h : I used a b) :
    Parallel (Parse.iterate step a) (Parse.iterate step b) fun more => I (used ++ more) := by
  constructor
  intro s bare htwin
  fun_induction Parse.iterate step a s generalizing used b bare with
  | case1 a s s' hround =>
    obtain ⟨htwin', more, hmore, hR⟩ := (hstep used a b h).run htwin
    rw [Parse.iterate]
    rcases hbare : step b bare with ⟨_ | b', bare'⟩ <;> simp only [hround, hbare] at htwin' hmore hR
    · exact ⟨htwin', more, hmore, hR⟩
    · exact hR.elim
  | case2 a s a' s' hround hlt ih =>
    obtain ⟨htwin', more, hmore, hR⟩ := (hstep used a b h).run htwin
    rcases hbare : step b bare with ⟨_ | b', bare'⟩ <;> simp only [hround, hbare] at htwin' hmore hR
    · exact hR.elim
    · -- the other round has moved past the same tokens, so it goes on as well
      rw [htwin.ahead, htwin'.ahead] at hlt
      have hnext : Parse.iterate step b bare = Parse.iterate step b' bare' := by
        rw [Parse.iterate, hbare]
        exact if_pos hlt
      rw [hnext]
      obtain ⟨htwin'', others, hothers, hI⟩ := ih hR htwin'
      exact ⟨htwin'', more ++ others, by rw [hmore, hothers, List.append_assoc],
        by rwa [← List.append_assoc]⟩
  | case3 a s a' s' hround hlt =>
    obtain ⟨htwin', more, hmore, hR⟩ := (hstep used a b h).run htwin
    rw [Parse.iterate]
    rcases hbare : step b bare with ⟨_ | b', bare'⟩ <;> simp only [hround, hbare] at htwin' hmore hR
    · exact hR.elim
    · -- neither round has moved past a token
      rw [htwin.ahead, htwin'.ahead] at hlt
      simp only [hlt, if_false]
      exact ⟨htwin', more, hmore, hR⟩

end Parallel

/-! ## Section 4: Trees that are alike -/

open Mlog.Expr (ofStatements)

/-- A tree and the tree of the parse without comments, after comments were
    passed. -/
structure Alike (scope : Scope) (used : List Comment) (e bare : Expr) : Prop where
  commented : Commented scope e bare
  kept : e.comments.Sublist (used.map Located.value)

namespace Alike

variable {scope : Scope} {used more : List Comment} {e bare : Expr}

/-- A tree without parts that is no comment. -/
theorem leaf (hparts : e.parts = []) (hown : e.ownComment = []) : Alike .single used e e :=
  ⟨.same e, by simp [Expr.comments_of_leaf hparts, hown]⟩

theorem one (h : Alike .single used e bare) : Alike .block used e bare := ⟨.one h.commented, h.kept⟩

/-- Comments that are passed need not be kept. -/
theorem drop (h : Alike scope used e bare) : Alike scope (used ++ more) e bare :=
  ⟨h.commented, h.kept.trans (by simp)⟩

theorem skip (h : Alike scope more e bare) : Alike scope (used ++ more) e bare :=
  ⟨h.commented, h.kept.trans (by simp)⟩

end Alike

/-- Arguments, each with its counterpart. -/
structure ArgsAlike (used : List Comment) (args bare : List Expr) : Prop where
  commented : List.Forall₂ (Commented .single) args bare
  kept : (args.flatMap Expr.comments).Sublist (used.map Located.value)

theorem ArgsAlike.snoc {used more : List Comment} {args bare : List Expr} {e e' : Expr}
    (h : ArgsAlike used args bare) (he : Alike .single more e e') :
    ArgsAlike (used ++ more) (args ++ [e]) (bare ++ [e']) := by
  constructor
  · exact List.rel_append h.commented (.cons he.commented .nil)
  · simpa using h.kept.append he.kept

/-- Arms of a `case`, each with its counterpart. -/
structure ArmsAlike (used : List Comment) (arms bare : List (Expr × Expr)) : Prop where
  commented : List.Forall₂ (ArmAlike (Commented .single) (Commented .block)) arms bare
  kept : (arms.flatMap fun arm => arm.1.comments ++ arm.2.comments).Sublist
    (used.map Located.value)

theorem ArmsAlike.drop {used : List Comment} {arms bare : List (Expr × Expr)}
    (h : ArmsAlike used arms bare) (more : List Comment) : ArmsAlike (used ++ more) arms bare :=
  ⟨h.commented, h.kept.trans (by simp)⟩

theorem ArmsAlike.snoc {used us vs : List Comment} {arms bare : List (Expr × Expr)}
    {pattern pattern' body body' : Expr} (h : ArmsAlike used arms bare)
    (hpattern : Alike .single us pattern pattern') (hbody : Alike .block vs body body') :
    ArmsAlike (used ++ (us ++ vs)) (arms ++ [(pattern, body)]) (bare ++ [(pattern', body')]) := by
  constructor
  · exact List.rel_append h.commented (.cons (.mk hpattern.commented hbody.commented) .nil)
  · simpa using h.kept.append (hpattern.kept.append hbody.kept)

/-- The parsers of a level give trees that are alike. -/
structure ParallelInner (inner : Inner) : Prop where
  expr : Parallel inner.expr inner.expr (Alike .single)
  statements : Parallel inner.statements inner.statements fun used stmts bare =>
    Alike .block used (ofStatements stmts) (ofStatements bare)
  rightOperand : ∀ power,
    Parallel (inner.rightOperand power) (inner.rightOperand power) (Alike .single)
  negated : Parallel inner.negated inner.negated (Alike .single)
  elseIf : Parallel inner.elseIf inner.elseIf (Alike .single)

/-! ## Section 5: Expressions of one level -/

namespace Grammar

variable {inner : Inner}

theorem parallel_block (h : ParallelInner inner) :
    Parallel (block inner) (block inner) (Alike .block) := by
  apply Parallel.after
  intro _
  apply h.statements.bind
  intro used stmts bare hstmts
  apply Parallel.after
  intro _
  exact .pure hstmts.drop

theorem parallel_builtin : Parallel builtin builtin (Alike .single) := by
  apply Parallel.after
  intro name
  apply Parallel.eat
  · apply Parallel.after
    intro property
    exact .pure (.leaf rfl rfl)
  · exact .pure (.leaf rfl rfl)

theorem parallel_nextArgument (h : ParallelInner inner) {used : List Comment}
    {args bare : List Expr} (hargs : ArgsAlike used args.reverse bare.reverse) :
    Parallel (nextArgument inner args) (nextArgument inner bare)
      (Parallel.Round (fun used args bare => ArgsAlike used args.reverse bare.reverse)
        used args bare) := by
  apply Parallel.eat
  · apply h.expr.bind
    intro more e e' he
    apply Parallel.pure
    simp only [Parallel.Round, List.reverse_cons, List.append_nil]
    exact hargs.snoc he
  · apply Parallel.pure
    simpa [Parallel.Round] using hargs

theorem parallel_arguments (h : ParallelInner inner) :
    Parallel (arguments inner) (arguments inner) ArgsAlike := by
  apply Parallel.eat
  · exact .pure ⟨.nil, by simp⟩
  · apply h.expr.bind
    intro used first first' hfirst
    have hone : ArgsAlike used [first].reverse [first'].reverse :=
      ⟨.cons hfirst.commented .nil, by simpa using hfirst.kept⟩
    have hiterate := Parallel.iterate
      (I := fun used (args bare : List Expr) => ArgsAlike used args.reverse bare.reverse)
      (fun _ _ _ => parallel_nextArgument h) hone
    apply hiterate.bind
    intro more args bare hargs
    apply Parallel.after
    intro _
    apply Parallel.pure
    simpa using hargs

theorem parallel_suffix (h : ParallelInner inner) (name : String) :
    Parallel (suffix inner name) (suffix inner name) (Alike .single) := by
  apply Parallel.after
  intro t
  -- a call, a memory cell, a property, or just the name
  split
  · apply Parallel.after
    intro _
    apply (parallel_arguments h).bind
    intro used args bare hargs
    apply Parallel.pure
    exact ⟨.call name hargs.commented, by simpa using hargs.kept⟩
  · apply Parallel.after
    intro _
    apply h.expr.bind
    intro used address address' haddress
    apply Parallel.after
    intro _
    apply Parallel.pure
    exact ⟨.load name haddress.commented, by simpa using haddress.kept⟩
  · apply Parallel.after
    intro _
    apply Parallel.after
    intro property
    exact .pure (.leaf rfl rfl)
  · exact .pure (.leaf rfl rfl)

/-- An `if` whose else part is given or missing. -/
theorem Alike.branch {us vs ws : List Comment} {cond cond' yes yes' no no' : Expr}
    (hcond : Alike .single us cond cond') (hyes : Alike .block vs yes yes')
    (hno : Alike .block ws no no') :
    Alike .single (us ++ (vs ++ ws)) (.branch cond yes no) (.branch cond' yes' no') :=
  ⟨.branch hcond.commented hyes.commented hno.commented,
    by simpa using hcond.kept.append (hyes.kept.append hno.kept)⟩

theorem parallel_branch (h : ParallelInner inner) :
    Parallel (branch inner) (branch inner) (Alike .single) := by
  apply Parallel.after
  intro _
  apply h.expr.bind
  intro us cond cond' hcond
  apply (parallel_block h).bind
  intro vs yes yes' hyes
  -- an `else if` and an absent else part count as blocks of one statement
  apply Parallel.eat
  · apply Parallel.after
    intro t
    split
    · apply h.elseIf.bind
      intro ws no no' hno
      apply Parallel.pure
      simpa using Alike.branch hcond hyes hno.one
    · apply (parallel_block h).bind
      intro ws no no' hno
      apply Parallel.pure
      simpa using Alike.branch hcond hyes hno
  · apply Parallel.pure
    have hnop : Alike .single [] .nop .nop := .leaf rfl rfl
    exact Alike.branch hcond hyes hnop.one

theorem parallel_nextArm (h : ParallelInner inner) {used : List Comment}
    {arms bare : List (Expr × Expr)} (harms : ArmsAlike used arms.reverse bare.reverse) :
    Parallel (nextArm inner arms) (nextArm inner bare)
      (Parallel.Round (fun used arms bare => ArmsAlike used arms.reverse bare.reverse)
        used arms bare) := by
  apply Parallel.skipComments
  intro skipped
  have harms := harms.drop skipped
  apply Parallel.eat
  · apply h.expr.bind
    intro us pattern pattern' hpattern
    apply (parallel_block h).bind
    intro vs body body' hbody
    apply Parallel.pure
    simp only [Parallel.Round, List.reverse_cons, List.append_nil]
    rw [← List.append_assoc]
    exact harms.snoc hpattern hbody
  · apply Parallel.pure
    simpa [Parallel.Round] using harms

theorem parallel_otherwise (h : ParallelInner inner) :
    Parallel (otherwise inner) (otherwise inner) (Alike .block) := by
  apply Parallel.eat
  · exact parallel_block h
  · have hnop : Alike .single [] .nop .nop := .leaf rfl rfl
    exact .pure hnop.one

theorem parallel_closeSelect : Parallel closeSelect closeSelect fun _ _ _ => True := by
  apply Parallel.skipComments
  intro skipped
  apply Parallel.eat
  · exact .pure trivial
  · apply Parallel.after
    intro t
    exact .quiet fun _ => trivial

theorem parallel_select (h : ParallelInner inner) :
    Parallel (select inner) (select inner) (Alike .single) := by
  apply Parallel.after
  intro _
  apply h.expr.bind
  intro us subject subject' hsubject
  apply Parallel.after
  intro _
  have hnone : ArmsAlike [] (List.reverse []) (List.reverse []) := ⟨.nil, by simp⟩
  have hiterate := Parallel.iterate
    (I := fun used (arms bare : List (Expr × Expr)) => ArmsAlike used arms.reverse bare.reverse)
    (fun _ _ _ => parallel_nextArm h) hnone
  apply hiterate.bind
  intro vs arms arms' harms
  apply (parallel_otherwise h).bind
  intro ws other other' hother
  -- comments before the closing brace are dropped, so they are in neither tree
  apply parallel_closeSelect.bind
  intro skipped _ _ _
  apply Parallel.pure
  have hselect : Alike .single (us ++ (vs ++ ws)) (.select subject arms.reverse other)
      (.select subject' arms'.reverse other') :=
    ⟨.select hsubject.commented harms.commented hother.commented,
      by simpa using hsubject.kept.append (harms.kept.append hother.kept)⟩
  have hskipped : Alike .single (us ++ (vs ++ ws) ++ skipped) _ _ := hselect.drop
  simpa using hskipped

theorem parallel_primary (h : ParallelInner inner) :
    Parallel (primary inner) (primary inner) (Alike .single) := by
  apply Parallel.after
  intro t
  split
  case h_6 =>
    apply Parallel.after
    intro _
    exact parallel_builtin
  case h_7 name =>
    apply Parallel.after
    intro _
    exact parallel_suffix h name
  case h_8 => exact parallel_branch h
  case h_9 => exact parallel_select h
  case h_10 =>
    apply Parallel.after
    intro _
    apply h.expr.bind
    intro used e e' he
    apply Parallel.after
    intro _
    exact .pure he.drop
  case h_13 found =>
    apply Parallel.after
    intro _
    apply Parallel.after
    intro _
    exact .pure (.leaf rfl rfl)
  -- a literal, or a fault after which no token is passed
  all_goals
    apply Parallel.after
    intro _
    exact .pure (.leaf rfl rfl)

theorem parallel_negation (h : ParallelInner inner) :
    Parallel (negation inner) (negation inner) (Alike .single) := by
  apply Parallel.after
  intro t
  split
  case h_3 => exact parallel_primary h
  all_goals
    apply Parallel.after
    intro _
    apply h.negated.bind
    intro used e e' he
    apply Parallel.pure
    exact ⟨.unary _ he.commented, by simpa using he.kept⟩

theorem parallel_unary (h : ParallelInner inner) :
    Parallel (unary inner) (unary inner) (Alike .single) := by
  apply Parallel.after
  intro t
  split
  · apply Parallel.after
    intro start
    apply Parallel.after
    intro _
    apply Parallel.after
    intro u
    split
    · apply Parallel.after
      intro _
      exact .pure (.leaf rfl rfl)
    · apply Parallel.after
      intro _
      apply Parallel.after
      intro _
      exact parallel_negation h
  · exact parallel_negation h

theorem parallel_nextOperation (h : ParallelInner inner) (power : Nat) {used : List Comment}
    {left left' : Expr} (hleft : Alike .single used left left') :
    Parallel (nextOperation inner power left) (nextOperation inner power left')
      (Parallel.Round (Alike .single) used left left') := by
  apply Parallel.after
  intro t
  cases t.binaryOperator? with
  | none => exact .pure hleft.drop
  | some operator =>
    obtain ⟨op, binding⟩ := operator
    -- how tightly an operator binds depends on its token only, so both parses go on or end
    by_cases hlt : binding.left < power
    · simp only [hlt, if_true]
      exact .pure hleft.drop
    · simp only [hlt, if_false]
      apply Parallel.after
      intro _
      apply (h.rightOperand binding.right).bind
      intro more right right' hright
      apply Parallel.pure
      show Alike .single (used ++ (more ++ [])) (.binary op left right) (.binary op left' right')
      exact ⟨.binary op hleft.commented hright.commented,
        by simpa using hleft.kept.append hright.kept⟩

theorem parallel_binary (h : ParallelInner inner) (power : Nat) :
    Parallel (binary inner power) (binary inner power) (Alike .single) := by
  apply (parallel_unary h).bind
  intro used first first' hfirst
  exact .iterate (fun _ _ _ => parallel_nextOperation h power) hfirst

/-! ## Section 6: Assignments -/

/-- Whether something can be assigned to, and what an assignment to it is, does
    not depend on comments. -/
theorem parallel_assign {us vs : List Comment} {target target' value value' : Expr}
    (htarget : Alike .single us target target') (hvalue : Alike .single vs value value')
    (span : Span) :
    Parallel (assign target span value) (assign target' span value') fun more =>
      Alike .single (us ++ vs ++ more) := by
  obtain ⟨hcommented, hkept⟩ := htarget
  have hassigned : Alike .single (us ++ vs ++ []) value value' := hvalue.skip.drop
  have hstored : ∀ {cell address address'}, Commented .single address address' →
      address.comments.Sublist (us.map Located.value) →
      Alike .single (us ++ vs ++ []) (.store cell address value) (.store cell address' value') := by
    intro cell address address' haddress hkept
    exact ⟨.store cell haddress hvalue.commented, by simpa using hkept.append hvalue.kept⟩
  cases hcommented with
  | same =>
    unfold assign
    split
    · exact .pure ⟨.assign _ hassigned.commented, by simpa using hassigned.kept⟩
    · exact .pure ⟨.assignBuiltin _ hassigned.commented, by simpa using hassigned.kept⟩
    · exact .pure (hstored (.same _) (by simpa using hkept))
    · exact .pure ⟨.control _ _ hassigned.commented, by simpa using hassigned.kept⟩
    · exact .reportAt _ _ span (.pure hassigned)
  | load cell haddress => exact .pure (hstored haddress (by simpa using hkept))
  -- nothing else can be assigned to
  | _ => exact .reportAt _ _ span (.pure hassigned)

/-- The left sides of a chain of assignments, the latest one first. -/
inductive TargetsAlike : List Comment → List (Expr × Span) → List (Expr × Span) → Prop
  | nil : TargetsAlike [] [] []
  | snoc {us vs target target' targets targets'} (span) : TargetsAlike us targets targets' →
      Alike .single vs target target' →
      TargetsAlike (us ++ vs) ((target, span) :: targets) ((target', span) :: targets')

/-- A chain of assignments: its left sides, and the expression it ends in. -/
def ChainAlike (used : List Comment) (chain chain' : Chain) : Prop :=
  chain.start = chain'.start ∧ ∃ us vs, used = us ++ vs ∧
    TargetsAlike us chain.targets chain'.targets ∧ Alike .single vs chain.last chain'.last

theorem parallel_link (h : ParallelInner inner) {us : List Comment}
    {targets targets' : List (Expr × Span)} (htargets : TargetsAlike us targets targets') :
    Parallel (link inner targets) (link inner targets') fun used => ChainAlike (us ++ used) := by
  apply Parallel.after
  intro start
  apply (parallel_binary h 0).bind
  intro used e e' he
  apply Parallel.pure
  rw [List.append_nil]
  exact ⟨rfl, us, used, rfl, htargets, he⟩

theorem parallel_nextAssignment (h : ParallelInner inner) {used : List Comment}
    {chain chain' : Chain} (hchain : ChainAlike used chain chain') :
    Parallel (nextAssignment inner chain) (nextAssignment inner chain')
      (Parallel.Round ChainAlike used chain chain') := by
  apply Parallel.after
  intro t
  split
  · apply Parallel.after
    intro place
    obtain ⟨hstart, us, vs, rfl, htargets, hlast⟩ := hchain
    rw [hstart]
    apply Parallel.after
    intro _
    apply (parallel_link h (htargets.snoc _ hlast)).bind
    intro more next next' hnext
    apply Parallel.pure
    simpa [Parallel.Round] using hnext
  · apply Parallel.pure
    simpa [Parallel.Round] using hchain

/-- The left sides take the value one after another, the latest one first. -/
theorem parallel_assignAll {us vs : List Comment} {targets targets' : List (Expr × Span)}
    {value value' : Expr} (htargets : TargetsAlike us targets targets')
    (hvalue : Alike .single vs value value') :
    Parallel (targets.foldlM (fun value target => assign target.1 target.2 value) value)
      (targets'.foldlM (fun value target => assign target.1 target.2 value) value')
      fun more => Alike .single (us ++ vs ++ more) := by
  induction htargets generalizing vs value value' with
  | nil => exact .pure hvalue.drop
  | snoc span _ htarget ih =>
    rw [List.foldlM_cons, List.foldlM_cons]
    apply (parallel_assign htarget hvalue span).bind
    intro more e e' he
    apply (ih he).post
    intro others e e' he
    simpa using he

theorem parallel_assignment (h : ParallelInner inner) :
    Parallel (assignment inner) (assignment inner) (Alike .single) := by
  apply (parallel_link h .nil).bind
  intro used first first' hfirst
  apply (Parallel.iterate (fun _ _ _ => parallel_nextAssignment h) hfirst).bind
  rintro more chain chain' ⟨_, us, vs, hused, htargets, hlast⟩
  apply (parallel_assignAll htargets hlast).post
  intro others e e' he
  rw [← hused] at he
  simpa using he

/-! ## Section 7: Statements -/

theorem parallel_loop (h : ParallelInner inner) :
    Parallel (loop inner) (loop inner) (Alike .single) := by
  apply Parallel.after
  intro _
  apply h.expr.bind
  intro us cond cond' hcond
  apply (parallel_block h).bind
  intro vs body body' hbody
  apply Parallel.pure
  exact ⟨.loop hcond.commented hbody.commented, by simpa using hcond.kept.append hbody.kept⟩

theorem parallel_statement (h : ParallelInner inner) :
    Parallel (statement inner) (statement inner) (Alike .single) := by
  have hbare : Parallel (bareStatement inner) (bareStatement inner) (Alike .single) := by
    apply Parallel.after
    intro t
    split
    · exact parallel_loop h
    · exact h.expr
  apply hbare.bind
  intro used e e' he
  apply Parallel.after
  intro _
  exact .pure he.drop

/-- Statements that were read, the latest one first. -/
structure StatementsAlike (used : List Comment) (stmts bare : List Expr) : Prop where
  empty : stmts = [] ↔ bare = []
  block : Alike .block used (ofStatements stmts.reverse) (ofStatements bare.reverse)

/-- A statement is read with the comments before it. -/
theorem StatementsAlike.next {used taken more : List Comment} {stmts bare : List Expr} {e e' : Expr}
    (h : StatementsAlike used stmts bare) (he : Alike .single more e e') :
    StatementsAlike (used ++ (taken ++ more))
      (e :: (taken.map fun c => Expr.comment c.value).reverse ++ stmts) (e' :: bare) := by
  have hstmts : (e :: (taken.map fun c => Expr.comment c.value).reverse ++ stmts).reverse =
      stmts.reverse ++ (taken.map Located.value).map .comment ++ [e] := by simp
  refine ⟨by simp, ?_, ?_⟩
  · rw [hstmts, List.reverse_cons]
    exact .appendStatement _ (by simpa using h.empty) h.block.commented he.commented
  · have hkept := h.block.kept
    rw [Expr.comments_ofStatements] at hkept ⊢
    have htaken : ((taken.map Located.value).map Expr.comment).flatMap Expr.comments =
        taken.map Located.value := by
      simp [List.flatMap_map, ← List.map_eq_flatMap]
    rw [hstmts, List.flatMap_append, List.flatMap_append, htaken]
    simpa using hkept.append ((List.Sublist.refl _).append he.kept)

theorem parallel_nextStatement (h : ParallelInner inner) (closing : Token) {used : List Comment}
    {stmts bare : List Expr} (hstmts : StatementsAlike used stmts bare) :
    Parallel (nextStatement inner closing stmts) (nextStatement inner closing bare)
      (Parallel.Round StatementsAlike used stmts bare) := by
  apply Parallel.after
  intro t
  split
  · apply Parallel.skipComments
    intro skipped
    apply Parallel.pure
    exact ⟨hstmts.empty, hstmts.block.drop⟩
  · apply Parallel.takeComments
    intro taken
    apply (parallel_statement h).recover
    intro more e e' he
    apply Parallel.pure
    simpa [Parallel.Round] using hstmts.next he

theorem parallel_statements (h : ParallelInner inner) (closing : Token) :
    Parallel (statements inner closing) (statements inner closing) fun used stmts bare =>
      Alike .block used (ofStatements stmts) (ofStatements bare) := by
  have hnone : StatementsAlike [] [] [] :=
    ⟨Iff.rfl, Alike.one (.leaf rfl rfl)⟩
  apply (Parallel.iterate (fun _ _ _ => parallel_nextStatement h closing) hnone).bind
  intro used stmts bare hstmts
  exact .pure hstmts.block.drop

/-- The parsers of every level give trees that are alike. -/
theorem parallelInner_level (n : Nat) : ParallelInner (level n) := by
  induction n with
  | zero =>
    have hnop : Alike .single [] .nop .nop := .leaf rfl rfl
    exact ⟨.giveUp hnop, .giveUp hnop.one, fun _ => .giveUp hnop, .giveUp hnop, .giveUp hnop⟩
  | succ n ih =>
    exact ⟨parallel_assignment ih, parallel_statements ih _, fun power => parallel_binary ih power,
      parallel_unary ih, parallel_branch ih⟩

end Grammar

/-! ## Section 8: Programs -/

/-- A parse and the parse without comments, from their starts. -/
theorem ParseState.twin_start (tokens : List (Located Token)) (comments : List Comment) :
    (start tokens comments).Twin (start tokens []) := ⟨rfl, rfl, rfl, rfl, rfl⟩

/-- Two parses agree: both find faults, as many and at the same places in the
    same order, or both give trees, as `R` says. -/
inductive ParsesAgree (R : Expr → Expr → Prop) :
    Except (List (Located SyntaxFault)) Expr → Except (List (Located SyntaxFault)) Expr → Prop
  | faults {faults faults'} : faults.map Located.span = faults'.map Located.span →
      ParsesAgree R (.error faults) (.error faults')
  | trees {e e'} : R e e' → ParsesAgree R (.ok e) (.ok e')

/-- A parse agrees with the parse without comments. -/
theorem parse_agree (tokens : List (Located Token)) (comments : List Comment) :
    ParsesAgree (Alike .block comments) (parse tokens comments) (parse tokens []) := by
  have hparallel := Grammar.parallel_statements (Grammar.parallelInner_level nestingLimit) .eof
  obtain ⟨htwin, used, hused, halike⟩ := hparallel.run (ParseState.twin_start tokens comments)
  have hspans := htwin.spans
  rw [parse_eq, parse_eq]
  unfold Grammar.program
  generalize Grammar.statements (Grammar.level nestingLimit) .eof (.start tokens comments) = result
    at *
  generalize Grammar.statements (Grammar.level nestingLimit) .eof (.start tokens []) = result' at *
  -- the places of the faults are the same, so both parses have some or neither has
  by_cases hnone : result.2.faults = []
  · have hnone' : result'.2.faults = [] := by simpa [hnone] using hspans.symm
    simp only [hnone, hnone', List.isEmpty_nil, if_true]
    have hsublist : used.Sublist comments := by
      rw [show comments = used ++ result.2.comments from hused]
      exact List.sublist_append_left _ _
    exact .trees ⟨halike.commented, halike.kept.trans (hsublist.map _)⟩
  · have hnone' : result'.2.faults ≠ [] := by
      intro h
      rw [h, List.map_nil, List.map_eq_nil_iff] at hspans
      exact hnone hspans
    simp only [List.isEmpty_iff, hnone, hnone', if_false]
    exact .faults (by simp [hspans])

/-- Comments never change the program: for the same tokens, with any comments,
    there are faults at the same places in the same order, or there are trees
    that generate the same program, if any.  The comments of a tree are some of
    the given ones, in their order. -/
theorem comments_never_matter (tokens : List (Located Token)) (comments others : List Comment) :
    ParsesAgree (fun e e' => (generate e).toOption = (generate e').toOption)
      (parse tokens comments) (parse tokens others) ∧
    ∀ e, parse tokens comments = .ok e → e.comments.Sublist (comments.map Located.value) := by
  have hfirst := parse_agree tokens comments
  have hsecond := parse_agree tokens others
  revert hfirst hsecond
  generalize parse tokens comments = first, parse tokens others = second, parse tokens [] = bare
  intro hfirst hsecond
  -- both parses are compared with the one that gets no comments at all
  cases hfirst with
  | faults hspans =>
    cases hsecond with
    | faults hspans' => exact ⟨.faults (hspans.trans hspans'.symm), by simp⟩
  | trees halike =>
    cases hsecond with
    | trees halike' =>
      have hsame := halike.commented.toOption_generate
      have hsame' := halike'.commented.toOption_generate
      refine ⟨.trees (hsame.trans hsame'.symm), ?_⟩
      intro e he
      rw [← Except.ok.inj he]
      exact halike.kept

end Mlog
