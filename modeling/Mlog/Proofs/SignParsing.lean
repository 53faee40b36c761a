import Mathlib.Data.List.Basic
import Mlog.Expr.Equality
import Mlog.Proofs.SignRuns
import Mlog.Proofs.Totality

/-! # Parsing runs of minus signs

    A minus sign is read as an operator or as part of a number.  Where it is
    neither, it is a fault, and all signs after it are passed with it.  So a run
    of three signs gives the same as a longer one in its place: the first sign may
    be an operator, the next one is a fault, and what remains of the run is not
    seen by any rule.

    Two parses of token lists that differ in the lengths of runs are led side by
    side through all rules.  No rule moves past a single sign of a run but the one
    for operators, and there an operand is next.  A statement at a sign moves past
    it, so the recovery from a statement that reads nothing meets no sign either.

    * `InStep P p q R`: from states related by `P`, the parsers `p` and `q` go to
      the same point, and their results are related by `R`.
    * `Steady p`: a parser that is in step with itself.
    * `PassesSign p`: at a minus sign, the parser moves.
    * `SteadyInner`: all parsers of a level are steady. -/

namespace Mlog

/-! ## Section 1: Parsers side by side -/

open ParseState (Along)

/-- From two states that are related, two parsers go to the same point, and their results are
    related. -/
structure InStep {α : Type} (P : ParseState → ParseState → Prop) (p q : Parse α)
    (R : α → α → Prop) : Prop where
  run : ∀ {s t}, P s t →
    R (p s).1 (q t).1 ∧ (p s).2.Beside 3 (q t).2 ∧ Along s t (p s).2 (q t).2

/-- A parser that gives the same result at the same point. -/
abbrev Steady {α : Type} (p : Parse α) : Prop := InStep (ParseState.Beside 3) p p Eq

namespace InStep

variable {α β : Type} {P Q : ParseState → ParseState → Prop} {p q : Parse α} {R S : α → α → Prop}
  {T : β → β → Prop}

theorem weaken (h : InStep Q p q R) (hP : ∀ {s t}, P s t → Q s t) : InStep P p q R :=
  ⟨fun hst => h.run (hP hst)⟩

theorem post (h : InStep P p q R) (hR : ∀ a b, R a b → S a b) : InStep P p q S := by
  constructor
  intro s t hst
  obtain ⟨hvalue, hstate⟩ := h.run hst
  exact ⟨hR _ _ hvalue, hstate⟩

theorem pure {a b : α} (h : R a b) : InStep (ParseState.Beside 3) (pure a) (pure b) R :=
  ⟨fun {s t} hst => ⟨h, hst, .refl s t⟩⟩

/-- One parser after another. -/
theorem bind {f g : α → Parse β} (hp : InStep P p q R)
    (hf : ∀ a b, R a b → InStep (ParseState.Beside 3) (f a) (g b) T) :
    InStep P (p >>= f) (q >>= g) T := by
  constructor
  intro s t hst
  obtain ⟨hvalue, hbeside, halong⟩ := hp.run hst
  obtain ⟨hvalue', hbeside', halong'⟩ := (hf _ _ hvalue).run hbeside
  exact ⟨hvalue', hbeside', halong.trans halong'⟩

/-- One parser after another, with the same result on both sides. -/
theorem andThen {f g : α → Parse β} (hp : InStep P p q Eq)
    (hf : ∀ a, InStep (ParseState.Beside 3) (f a) (g a) T) : InStep P (p >>= f) (q >>= g) T := by
  apply hp.bind
  rintro a b rfl
  exact hf a

/-- Both look at the same token, and go on. -/
theorem peek {f g : Token → Parse β} (hP : ∀ {s t}, P s t → s.current.value = t.current.value)
    (hf : ∀ token, InStep (fun s t => P s t ∧ s.current.value = token) (f token) (g token) T) :
    InStep P (Parse.peek >>= f) (Parse.peek >>= g) T := by
  constructor
  intro s t hst
  rw [Parse.peek_bind, Parse.peek_bind, ← hP hst]
  exact (hf s.current.value).run ⟨hst, rfl⟩

/-- Moving past a token that is no sign, and going on. -/
theorem pass {f g : Unit → Parse β} (hP : ∀ {s t}, P s t → s.Clear t)
    (hf : InStep (ParseState.Beside 3) (f ()) (g ()) T) :
    InStep P (Parse.advance >>= f) (Parse.advance >>= g) T := by
  constructor
  intro s t hst
  have hclear := hP hst
  have halong := hclear.along_advance
  obtain ⟨hvalue, hbeside, halong'⟩ := hf.run hclear.advance
  exact ⟨hvalue, hbeside, halong.trans halong'⟩

/-- Moving past a known token, and going on. -/
theorem passToken {token : Token} {f g : Unit → Parse β} (h : token ≠ .symbol .minus)
    (hf : InStep (ParseState.Beside 3) (f ()) (g ()) T) :
    InStep (fun s t => s.Beside 3 t ∧ s.current.value = token) (Parse.advance >>= f)
      (Parse.advance >>= g) T :=
  pass (fun hst => .of_ne hst.1 (hst.2 ▸ h)) hf

/-- Moving past any token, which may be the first one of a run. -/
theorem advance {f g : Unit → Parse β} (hf : InStep (ParseState.Beside 2) (f ()) (g ()) T) :
    InStep (ParseState.Beside 3) (Parse.advance >>= f) (Parse.advance >>= g) T := by
  constructor
  intro s t hst
  have halong := hst.along_advance
  obtain ⟨hvalue, hbeside, halong'⟩ := hf.run (hst.advance (by decide))
  exact ⟨hvalue, hbeside, halong.trans halong'⟩

/-- Where both are does not matter. -/
theorem here {f g : Span → Parse β} (hf : ∀ start start', InStep P (f start) (g start') T) :
    InStep P (Parse.here >>= f) (Parse.here >>= g) T :=
  ⟨fun {s t} hst => (hf s.current.span t.current.span).run hst⟩

/-- The places of faults do not matter. -/
theorem reportAt (fault : SyntaxFault) (span span' : Span) :
    InStep (ParseState.Beside 3) (Parse.reportAt fault span) (Parse.reportAt fault span') Eq :=
  ⟨fun hst => ⟨rfl, hst.report fault span span', .report _ _ fault span span'⟩⟩

/-- Noting a fault at the token under the cursor, and going on from there. -/
theorem reportHere {f g : Unit → Parse β} (fault : SyntaxFault)
    (hf : InStep ParseState.Clear (f ()) (g ()) T) :
    InStep ParseState.Clear (Parse.report fault >>= f) (Parse.report fault >>= g) T := by
  constructor
  intro s t hst
  have halong := Along.report s t fault s.current.span t.current.span
  obtain ⟨hvalue, hbeside, halong'⟩ := hf.run (hst.report fault s.current.span t.current.span)
  exact ⟨hvalue, hbeside, halong.trans halong'⟩

/-- A repetition keeps the relation that its rounds keep.  Both parses move past tokens or
    neither does, so they end together. -/
theorem iterate {step : α → Parse (Option α)}
    (hstep : ∀ a b, R a b →
      InStep (ParseState.Beside 3) (step a) (step b) (Option.Rel R)) {a b : α} (hab : R a b) :
    InStep (ParseState.Beside 3) (Parse.iterate step a) (Parse.iterate step b) R := by
  constructor
  intro s t hst
  -- by induction on the rounds of the first parse; the second one makes as many
  fun_induction Parse.iterate step a s generalizing b t with
  | case1 a s s' hround =>
    have hboth := (hstep a b hab).run hst
    rw [Parse.iterate]
    rcases hother : step b t with ⟨_ | b', t'⟩
    · rw [hround, hother] at hboth
      exact ⟨hab, hboth.2⟩
    · rw [hround, hother] at hboth
      cases hboth.1
  | case2 a s a' s' hround hlt ih =>
    have hboth := (hstep a b hab).run hst
    rcases hother : step b t with ⟨_ | b', t'⟩
    · rw [hround, hother] at hboth
      cases hboth.1
    · rw [hround, hother] at hboth
      obtain ⟨⟨hvalue⟩, hbeside, halong⟩ := hboth
      have hnext : Parse.iterate step b t = Parse.iterate step b' t' := by
        obtain ⟨hleft, hright, hstays⟩ : Along s t s' t' := halong
        rw [Parse.iterate, hother]
        exact if_pos (by omega)
      rw [hnext]
      obtain ⟨hvalue', hbeside', halong'⟩ := ih hvalue hbeside
      exact ⟨hvalue', hbeside', halong.trans halong'⟩
  | case3 a s a' s' hround hlt =>
    have hboth := (hstep a b hab).run hst
    rcases hother : step b t with ⟨_ | b', t'⟩
    · rw [hround, hother] at hboth
      cases hboth.1
    · rw [hround, hother] at hboth
      obtain ⟨⟨hvalue⟩, hbeside, halong⟩ := hboth
      have hnext : Parse.iterate step b t = (b', t') := by
        obtain ⟨hleft, hright, hstays⟩ : Along s t s' t' := halong
        rw [Parse.iterate, hother]
        exact if_neg (by omega)
      rw [hnext]
      exact ⟨hvalue, hbeside, halong⟩

theorem giveUp (a : α) : InStep (ParseState.Beside 2) (Grammar.giveUp a) (Grammar.giveUp a) Eq :=
  ⟨fun hst => ⟨rfl, hst.abort, hst.along_abort⟩⟩

end InStep

namespace Steady

variable {α : Type}

theorem peek : Steady Parse.peek := ⟨fun {s t} hst => ⟨hst.current, hst, .refl s t⟩⟩

theorem eat {token : Token} (h : token ≠ .symbol .minus) : Steady (Parse.eat token) := by
  constructor
  intro s t hst
  have heat : ∀ s, Parse.eat token s =
      if s.current.value = token then (true, s.advance) else (false, s) := fun _ => rfl
  rw [heat, heat, ← hst.current]
  split
  · rename_i hcurrent
    have hclear := ParseState.Clear.of_ne hst (hcurrent ▸ h)
    exact ⟨rfl, hclear.advance, hst.along_advance⟩
  · exact ⟨rfl, hst, .refl s t⟩

/-- Moving past a token if it is there, and then going on. -/
theorem eatThen {token : Token} {f : Bool → Parse α} (h : token ≠ .symbol .minus)
    (hfound : Steady (f true)) (hmissing : Steady (f false)) : Steady (Parse.eat token >>= f) := by
  apply (eat h).andThen
  intro found
  cases found with
  | true => exact hfound
  | false => exact hmissing

theorem report (fault : SyntaxFault) : Steady (Parse.report fault) :=
  ⟨fun hst => ⟨rfl, hst.report fault _ _, .report _ _ fault _ _⟩⟩

theorem expect {token : Token} (h : token ≠ .symbol .minus) : Steady (Parse.expect token) := by
  apply eatThen h
  · exact .pure rfl
  · apply peek.andThen
    intro found
    exact report _

theorem expectName : Steady Parse.expectName := by
  apply InStep.peek (fun hst => hst.current)
  intro token
  split
  · exact .passToken (by simp) (.pure rfl)
  · apply InStep.weaken _ And.left
    exact (report _).andThen fun _ => .pure rfl

theorem skipComments : Steady Parse.skipComments := by
  constructor
  intro s t hst
  show () = () ∧ s.skipComments.Beside 3 t.skipComments ∧ Along s t s.skipComments t.skipComments
  rw [ParseState.skipComments_of_nil hst.comments.1, ParseState.skipComments_of_nil hst.comments.2]
  exact ⟨rfl, hst, .refl s t⟩

theorem takeComments : Steady Parse.takeComments := by
  constructor
  intro s t hst
  obtain ⟨-, hbeside, halong⟩ := skipComments.run hst
  refine ⟨?_, hbeside, halong⟩
  show s.comments.takeWhile s.isPassed = t.comments.takeWhile t.isPassed
  rw [hst.comments.1, hst.comments.2]
  rfl

theorem iterate {step : α → Parse (Option α)} (hstep : ∀ a, Steady (step a)) (a : α) :
    Steady (Parse.iterate step a) := by
  apply InStep.iterate _ rfl
  rintro a b rfl
  apply (hstep a).post
  rintro x y rfl
  cases x with
  | none => exact .none
  | some x => exact .some rfl

theorem discard {p : Parse α} (h : Steady p) : Steady (discard p) :=
  h.andThen fun _ => .pure rfl

end Steady

/-! ## Section 2: Signs are passed -/

/-- A parser that moves past a minus sign, unless it is the last token. -/
def PassesSign {α : Type} (p : Parse α) : Prop :=
  ∀ s, s.current.value = .symbol .minus → s.ahead ≠ [] → (p s).2.ahead.length < s.ahead.length

theorem PassesSign.bind {α β : Type} {p : Parse α} {f : α → Parse β} (hp : PassesSign p)
    (hf : ∀ a, Keeps (f a)) : PassesSign (p >>= f) := by
  intro s hsign hahead
  exact Nat.lt_of_le_of_lt ((hf _).keeps (sticky_ahead _) (Nat.le_refl _)) (hp s hsign hahead)

/-- Where a parser has read nothing, there is no sign but the last token. -/
theorem PassesSign.clear {α : Type} {p : Parse α} [hkeeps : Keeps p] (hpasses : PassesSign p)
    {s t : ParseState} (hbeside : (p s).2.Beside 3 t)
    (hstays : (p s).2.ahead.length = s.ahead.length) : (p s).2.Clear t := by
  refine ⟨hbeside, fun hsign => ?_⟩
  -- as many tokens as before are left, so they are the same ones
  have hlater := hkeeps.keeps (sticky_remaining s.remaining) (List.suffix_refl _)
  have hsame : (p s).2.remaining = s.remaining :=
    hlater.eq_of_length (by simp [ParseState.remaining, hstays])
  obtain ⟨hcurrent, hahead⟩ := List.cons.inj hsame
  by_cases hlast : s.ahead = []
  · rw [hahead, hlast]
  · have hlt := hpasses s (hcurrent ▸ hsign) hlast
    omega

/-- A parser that is recovered from: both parses have moved past tokens, or both move past
    one now. -/
theorem Steady.recovered {α : Type} {p : Parse α} [Keeps p] (hp : Steady p)
    (hpasses : PassesSign p) :
    Steady (do
      let ahead := (← get).ahead.length
      let a ← p
      Grammar.recover ahead
      return a) := by
  constructor
  intro s t hst
  obtain ⟨hvalue, hbeside, halong⟩ := hp.run hst
  refine ⟨hvalue, ?_⟩
  show (if (p s).2.ahead.length = s.ahead.length then (p s).2.advance else (p s).2).Beside 3
      (if (p t).2.ahead.length = t.ahead.length then (p t).2.advance else (p t).2) ∧
    Along s t (if (p s).2.ahead.length = s.ahead.length then (p s).2.advance else (p s).2)
      (if (p t).2.ahead.length = t.ahead.length then (p t).2.advance else (p t).2)
  by_cases hstays : (p s).2.ahead.length = s.ahead.length
  · rw [if_pos hstays, if_pos (halong.stays.mp hstays)]
    -- the token that is passed now must not be a sign of a run
    have hclear := hpasses.clear hbeside hstays
    exact ⟨hclear.advance, halong.trans hbeside.along_advance⟩
  · rw [if_neg hstays, if_neg (mt halong.stays.mpr hstays)]
    exact ⟨hbeside, halong⟩

theorem Parse.here_bind {β : Type} (f : Span → Parse β) (s : ParseState) :
    (Parse.here >>= f) s = f s.current.span s := rfl

theorem Parse.advance_bind {β : Type} (f : Unit → Parse β) (s : ParseState) :
    (Parse.advance >>= f) s = f () s.advance := rfl

namespace Grammar

variable {inner : Inner}

theorem unary_of_ne {s : ParseState} (h : s.current.value ≠ .symbol .minus) :
    unary inner s = negation inner s := by
  unfold unary
  rw [Parse.peek_bind]
  simp only [if_neg h]

theorem unary_of_number {s : ParseState} {text : String} (h : s.current.value = .symbol .minus)
    (hnumber : s.advance.current.value = .number text) :
    unary inner s = (.num ("-" ++ text), s.advance.advance) := by
  unfold unary
  rw [Parse.peek_bind, if_pos h, Parse.here_bind, Parse.advance_bind, Parse.peek_bind, hnumber]
  rfl

theorem unary_of_sign {s : ParseState} (h : s.current.value = .symbol .minus)
    (hnumber : ∀ text, s.advance.current.value ≠ .number text) :
    unary inner s =
      negation inner ((s.advance.report .negation s.current.span).skipAll (.symbol .minus)) := by
  unfold unary
  rw [Parse.peek_bind, if_pos h, Parse.here_bind, Parse.advance_bind, Parse.peek_bind]
  generalize s.advance.current.value = token at hnumber
  split
  · rename_i text
    exact absurd rfl (hnumber text)
  · rfl

theorem passesSign_unary [KeepsInner inner] : PassesSign (unary inner) := by
  intro s hsign hahead
  have hpos : 0 < s.ahead.length := List.length_pos_iff.mpr hahead
  have hadvance := s.length_advance
  by_cases hnumber : ∃ text, s.advance.current.value = .number text
  · obtain ⟨text, hnumber⟩ := hnumber
    rw [unary_of_number hsign hnumber]
    have hadvance' := s.advance.length_advance
    show s.advance.advance.ahead.length < s.ahead.length
    omega
  · rw [unary_of_sign hsign fun text htext => hnumber ⟨text, htext⟩]
    have hskip := length_ahead_skipAll (s.advance.report .negation s.current.span) (.symbol .minus)
    rw [ParseState.ahead_report] at hskip
    have hkeeps : Keeps (negation inner) := keeps_negation
    have hrest := hkeeps.keeps (sticky_ahead s.advance.ahead.length) hskip
    omega

theorem passesSign_binary [KeepsInner inner] (power : Nat) : PassesSign (binary inner power) :=
  passesSign_unary.bind fun _ => inferInstance

theorem passesSign_assignment [KeepsInner inner] : PassesSign (assignment inner) := by
  have hlink : PassesSign (link inner []) := by
    intro s hsign hahead
    exact ((passesSign_binary 0).bind fun e => KeepsAt.pure (Chain.mk [] s.current.span e)) s hsign
      hahead
  exact hlink.bind fun _ => inferInstance

theorem passesSign_statement [KeepsInner inner] (h : PassesSign inner.expr) :
    PassesSign (statement inner) := by
  have hbare : PassesSign (bareStatement inner) := by
    intro s hsign hahead
    have hexpr : bareStatement inner s = inner.expr s := by
      unfold bareStatement
      rw [Parse.peek_bind, if_neg (by simp [hsign])]
    rw [hexpr]
    exact h s hsign hahead
  exact hbare.bind fun _ => inferInstance

theorem passesSign_level (n : Nat) : PassesSign (level n).expr := by
  cases n with
  | zero =>
    intro s _ hahead
    exact List.length_pos_iff.mpr hahead
  | succ n => exact passesSign_assignment

end Grammar

/-! ## Section 3: The rules of one level -/

/-- The parsers of a level give the same at the same point.  A right operand may start within a
    run, of which the operator was the first sign. -/
structure SteadyInner (inner : Inner) : Prop where
  expr : Steady inner.expr
  statements : Steady inner.statements
  rightOperand : ∀ power,
    InStep (ParseState.Beside 2) (inner.rightOperand power) (inner.rightOperand power) Eq
  negated : Steady inner.negated
  elseIf : Steady inner.elseIf

namespace Grammar

variable {inner : Inner}

theorem steady_block (h : SteadyInner inner) : Steady (block inner) := by
  apply (Steady.expect (by simp)).andThen
  intro _
  apply h.statements.andThen
  intro body
  apply (Steady.expect (by simp)).andThen
  intro _
  exact .pure rfl

theorem steady_property : Steady property := by
  apply (Steady.discard (.eat (by simp))).andThen
  intro _
  apply Steady.expectName.andThen
  intro name
  exact .pure rfl

theorem steady_builtin : Steady builtin := by
  apply Steady.expectName.andThen
  intro name
  apply Steady.eatThen (by simp)
  · apply steady_property.andThen
    intro property
    exact .pure rfl
  · exact .pure rfl

theorem steady_nextArgument (h : SteadyInner inner) (args : List Expr) :
    Steady (nextArgument inner args) := by
  apply Steady.eatThen (by simp)
  · apply h.expr.andThen
    intro arg
    exact .pure rfl
  · exact .pure rfl

theorem steady_arguments (h : SteadyInner inner) : Steady (arguments inner) := by
  apply Steady.eatThen (by simp)
  · exact .pure rfl
  · apply h.expr.andThen
    intro first
    apply (Steady.iterate (steady_nextArgument h) [first]).andThen
    intro args
    apply (Steady.expect (by simp)).andThen
    intro _
    exact .pure rfl

theorem steady_suffix (h : SteadyInner inner) (name : String) : Steady (suffix inner name) := by
  apply InStep.peek (fun hst => hst.current)
  intro token
  split
  · apply InStep.passToken (by simp)
    apply (steady_arguments h).andThen
    intro args
    exact .pure rfl
  · apply InStep.passToken (by simp)
    apply h.expr.andThen
    intro address
    apply (Steady.expect (by simp)).andThen
    intro _
    exact .pure rfl
  · apply InStep.passToken (by simp)
    apply steady_property.andThen
    intro property
    exact .pure rfl
  · exact (InStep.pure rfl).weaken And.left

theorem steady_branch (h : SteadyInner inner) : Steady (branch inner) := by
  apply (Steady.expect (by simp)).andThen
  intro _
  apply h.expr.andThen
  intro cond
  apply (steady_block h).andThen
  intro yes
  apply Steady.eatThen (by simp)
  · apply Steady.peek.andThen
    intro token
    split
    · apply h.elseIf.andThen
      intro no
      exact .pure rfl
    · apply (steady_block h).andThen
      intro no
      exact .pure rfl
  · exact .pure rfl

theorem steady_nextArm (h : SteadyInner inner) (arms : List (Expr × Expr)) :
    Steady (nextArm inner arms) := by
  apply Steady.skipComments.andThen
  intro _
  apply Steady.eatThen (by simp)
  · apply h.expr.andThen
    intro pattern
    apply (steady_block h).andThen
    intro body
    exact .pure rfl
  · exact .pure rfl

theorem steady_otherwise (h : SteadyInner inner) : Steady (otherwise inner) := by
  apply Steady.eatThen (by simp)
  · exact steady_block h
  · exact .pure rfl

theorem steady_closeSelect : Steady closeSelect := by
  apply Steady.skipComments.andThen
  intro _
  apply Steady.eatThen (by simp)
  · exact .pure rfl
  · apply Steady.peek.andThen
    intro found
    exact Steady.report _

theorem steady_select (h : SteadyInner inner) : Steady (select inner) := by
  apply (Steady.expect (by simp)).andThen
  intro _
  apply h.expr.andThen
  intro subject
  apply (Steady.expect (by simp)).andThen
  intro _
  apply (Steady.iterate (steady_nextArm h) []).andThen
  intro arms
  apply (steady_otherwise h).andThen
  intro other
  apply steady_closeSelect.andThen
  intro _
  exact .pure rfl

/-- Where no expression starts, the token that is passed is no sign of a run. -/
theorem inStep_primary (h : SteadyInner inner) :
    InStep ParseState.Clear (primary inner) (primary inner) Eq := by
  apply InStep.peek (fun hst => hst.current)
  intro token
  split
  case h_6 =>
    apply InStep.pass And.left
    exact steady_builtin
  case h_7 name =>
    apply InStep.pass And.left
    exact steady_suffix h name
  case h_8 => exact (steady_branch h).weaken fun hst => hst.1.toBeside
  case h_9 => exact (steady_select h).weaken fun hst => hst.1.toBeside
  case h_10 =>
    apply InStep.pass And.left
    apply h.expr.andThen
    intro e
    apply (Steady.expect (by simp)).andThen
    intro _
    exact .pure rfl
  case h_11 =>
    exact ((Steady.report _).andThen fun _ => .pure rfl).weaken fun hst => hst.1.toBeside
  case h_12 =>
    exact ((Steady.report _).andThen fun _ => .pure rfl).weaken fun hst => hst.1.toBeside
  case h_13 found =>
    apply InStep.weaken _ And.left
    exact .reportHere _ (.pass id (.pure rfl))
  -- a literal
  all_goals exact .pass And.left (.pure rfl)

theorem inStep_negation (h : SteadyInner inner) :
    InStep ParseState.Clear (negation inner) (negation inner) Eq := by
  apply InStep.peek (fun hst => hst.current)
  intro token
  split
  case h_3 => exact (inStep_primary h).weaken And.left
  all_goals
    apply InStep.pass And.left
    apply h.negated.andThen
    intro operand
    exact .pure rfl

/-- The first sign of a run is a fault, and with it all signs after it are passed. -/
theorem inStep_unary (h : SteadyInner inner) :
    InStep (ParseState.Beside 2) (unary inner) (unary inner) Eq := by
  constructor
  intro s t hst
  by_cases hsign : s.current.value = .symbol .minus
  · have hsign' : t.current.value = .symbol .minus := hst.current ▸ hsign
    -- what follows the sign is the same token on both sides, be it in the run or behind it
    have hnext : s.advance.Beside 1 t.advance := hst.advance (by decide)
    by_cases hnumber : ∃ text, s.advance.current.value = .number text
    · obtain ⟨text, hnumber⟩ := hnumber
      have hnumber' : t.advance.current.value = .number text := hnext.current ▸ hnumber
      have hclear : s.advance.Clear t.advance := .of_ne hnext (by simp [hnumber])
      rw [unary_of_number hsign hnumber, unary_of_number hsign' hnumber']
      exact ⟨rfl, hclear.advance, hst.along_advance.trans hclear.along_advance⟩
    · have hother : ∀ text, s.advance.current.value ≠ .number text :=
        fun text htext => hnumber ⟨text, htext⟩
      have hother' : ∀ text, t.advance.current.value ≠ .number text := hnext.current ▸ hother
      rw [unary_of_sign hsign hother, unary_of_sign hsign' hother']
      -- from here on the lengths of the runs are forgotten
      have hclear := ParseState.Clear.skipAll
        (hnext.report .negation s.current.span t.current.span)
      obtain ⟨hvalue, hbeside, halong'⟩ := (inStep_negation h).run hclear
      exact ⟨hvalue, hbeside, (hst.along_skipAll ..).trans halong'⟩
  · have hsign' : t.current.value ≠ .symbol .minus := hst.current ▸ hsign
    rw [unary_of_ne hsign, unary_of_ne hsign']
    exact (inStep_negation h).run (.of_ne hst hsign)

theorem steady_nextOperation (h : SteadyInner inner) (power : Nat) (left : Expr) :
    Steady (nextOperation inner power left) := by
  apply Steady.peek.andThen
  intro token
  cases token.binaryOperator? with
  | none => exact .pure rfl
  | some operator =>
    obtain ⟨op, binding⟩ := operator
    by_cases hlt : binding.left < power
    · simp only [hlt, if_true]
      exact .pure rfl
    · simp only [hlt, if_false]
      -- a minus sign that is an operator may be the first one of a run
      apply InStep.advance
      apply (h.rightOperand binding.right).andThen
      intro right
      exact .pure rfl

theorem inStep_binary (h : SteadyInner inner) (power : Nat) :
    InStep (ParseState.Beside 2) (binary inner power) (binary inner power) Eq := by
  apply (inStep_unary h).andThen
  intro first
  exact Steady.iterate (steady_nextOperation h power) first

/-! ## Section 4: Assignments and statements -/

/-- Two chains of assignments are the same but for the places of their left sides. -/
structure SameChain (chain chain' : Chain) : Prop where
  targets : chain.targets.map Prod.fst = chain'.targets.map Prod.fst
  last : chain.last = chain'.last

theorem inStep_link (h : SteadyInner inner) {targets targets' : List (Expr × Span)}
    (htargets : targets.map Prod.fst = targets'.map Prod.fst) :
    InStep (ParseState.Beside 3) (link inner targets) (link inner targets') SameChain := by
  apply InStep.here
  intro start start'
  apply ((inStep_binary h 0).weaken fun hst => hst.mono (by decide)).andThen
  intro e
  exact .pure ⟨htargets, rfl⟩

theorem inStep_nextAssignment (h : SteadyInner inner) {chain chain' : Chain}
    (hchain : SameChain chain chain') :
    InStep (ParseState.Beside 3) (nextAssignment inner chain) (nextAssignment inner chain')
      (Option.Rel SameChain) := by
  apply InStep.peek (fun hst => hst.current)
  intro token
  by_cases hassign : token = .symbol .assign
  · simp only [hassign, if_true]
    apply InStep.here
    intro place place'
    apply InStep.passToken (by simp)
    have htargets : ((chain.last, chain.start.merge place) :: chain.targets).map Prod.fst =
        ((chain'.last, chain'.start.merge place') :: chain'.targets).map Prod.fst := by
      simp [hchain.last, hchain.targets]
    apply (inStep_link h htargets).bind
    intro next next' hnext
    exact .pure (.some hnext)
  · simp only [hassign, if_false]
    exact (InStep.pure .none).weaken And.left

theorem inStep_assign (target value : Expr) (span span' : Span) :
    InStep (ParseState.Beside 3) (assign target span value) (assign target span' value) Eq := by
  unfold assign
  split
  case h_5 => exact (InStep.reportAt _ span span').andThen fun _ => .pure rfl
  all_goals exact .pure rfl

/-- The left sides take the value one after another, the latest one first. -/
theorem inStep_assignAll {targets targets' : List (Expr × Span)}
    (htargets : targets.map Prod.fst = targets'.map Prod.fst) (value : Expr) :
    InStep (ParseState.Beside 3)
      (targets.foldlM (fun value target => assign target.1 target.2 value) value)
      (targets'.foldlM (fun value target => assign target.1 target.2 value) value) Eq := by
  induction targets generalizing targets' value with
  | nil =>
    rw [List.map_nil, eq_comm, List.map_eq_nil_iff] at htargets
    rw [htargets]
    exact .pure rfl
  | cons target targets ih =>
    cases targets' with
    | nil => exact absurd htargets (by simp)
    | cons target' targets' =>
      obtain ⟨htarget, htargets⟩ := List.cons.inj htargets
      rw [List.foldlM_cons, List.foldlM_cons, htarget]
      apply (inStep_assign target'.1 value target.2 target'.2).andThen
      exact ih htargets

theorem steady_assignment (h : SteadyInner inner) : Steady (assignment inner) := by
  apply (inStep_link h rfl).bind
  intro first first' hfirst
  apply (InStep.iterate (fun _ _ => inStep_nextAssignment h) hfirst).bind
  intro chain chain' hchain
  rw [hchain.last]
  exact inStep_assignAll hchain.targets chain'.last

theorem steady_loop (h : SteadyInner inner) : Steady (loop inner) := by
  apply (Steady.expect (by simp)).andThen
  intro _
  apply h.expr.andThen
  intro cond
  apply (steady_block h).andThen
  intro body
  exact .pure rfl

theorem steady_statement (h : SteadyInner inner) : Steady (statement inner) := by
  have hbare : Steady (bareStatement inner) := by
    apply Steady.peek.andThen
    intro token
    split
    · exact steady_loop h
    · exact h.expr
  apply hbare.andThen
  intro e
  apply (Steady.discard (.eat (by simp))).andThen
  intro _
  exact .pure rfl

theorem steady_nextStatement [KeepsInner inner] (h : SteadyInner inner)
    (hpasses : PassesSign inner.expr) (closing : Token) (stmts : List Expr) :
    Steady (nextStatement inner closing stmts) := by
  apply Steady.peek.andThen
  intro token
  split
  · apply Steady.skipComments.andThen
    intro _
    exact .pure rfl
  · apply Steady.takeComments.andThen
    intro comments
    have hrecovered := (steady_statement h).recovered (passesSign_statement hpasses)
    exact hrecovered.andThen fun e => .pure (a := some
      (e :: (comments.map fun c => Expr.comment c.value).reverse ++ stmts)) rfl

theorem steady_statements [KeepsInner inner] (h : SteadyInner inner)
    (hpasses : PassesSign inner.expr) (closing : Token) : Steady (statements inner closing) := by
  apply (Steady.iterate (steady_nextStatement h hpasses closing) []).andThen
  intro stmts
  exact .pure rfl

/-- The parsers of every level give the same at the same point. -/
theorem steadyInner_level (n : Nat) : SteadyInner (level n) := by
  induction n with
  | zero =>
    -- the parse may be given up within a run, as the last token is the same
    have hgiveUp : ∀ {α : Type} (a : α), Steady (giveUp a) :=
      fun a => (InStep.giveUp a).weaken fun hst => hst.mono (by decide)
    exact ⟨hgiveUp _, hgiveUp _, fun _ => .giveUp _, hgiveUp _, hgiveUp _⟩
  | succ n ih =>
    exact ⟨steady_assignment ih, steady_statements ih (passesSign_level n) _,
      inStep_binary ih, (inStep_unary ih).weaken fun hst => hst.mono (by decide), steady_branch ih⟩

end Grammar

/-! ## Section 5: Programs -/

namespace ParseState

/-- The tokens that a parse starts with, from the given ones. -/
theorem tokens_start_eq (tokens : List (Located Token)) (comments : List Comment) :
    (start tokens comments).tokens =
      if (tokens.map Located.value).getLast? = some .eof then tokens.map Located.value
      else tokens.map Located.value ++ [.eof] := by
  have hremaining : (start tokens comments).tokens = (closed tokens).map Located.value :=
    congrArg (List.map Located.value) (remaining_start tokens comments)
  rw [hremaining, List.getLast?_map]
  unfold closed
  cases hlast : tokens.getLast? with
  | none =>
    rw [List.getLast?_eq_none_iff.mp hlast]
    rfl
  | some last =>
    by_cases heof : last.value = .eof
    · simp [heof]
    · simp [heof, endOfFile]

theorem beside_start {tokens tokens' : List (Located Token)}
    (h : Stretched 3 (tokens.map Located.value) (tokens'.map Located.value)) :
    (start tokens []).Beside 3 (start tokens' []) := by
  refine ⟨?_, rfl, rfl, rfl, rfl⟩
  rw [tokens_start_eq, tokens_start_eq, h.getLast?_eq (by decide)]
  split
  · exact h
  · exact h.append (by decide) [.eof]

end ParseState

/-- Runs of minus signs that are longer or shorter do not change what is parsed, but for the
    places of faults. -/
theorem parse_stretched {tokens tokens' : List (Located Token)}
    (h : Stretched 3 (tokens.map Located.value) (tokens'.map Located.value)) :
    (∃ e, parse tokens [] = .ok e ∧ parse tokens' [] = .ok e) ∨
    ∃ faults faults', parse tokens [] = .error faults ∧ parse tokens' [] = .error faults' ∧
      faults.map Located.value = faults'.map Located.value := by
  have hlevel := Grammar.steadyInner_level nestingLimit
  -- the two states stay beside each other up to the end of the program
  have hsteady : Steady Grammar.program :=
    Grammar.steady_statements hlevel (Grammar.passesSign_level nestingLimit) .eof
  obtain ⟨hvalue, hbeside, -⟩ := hsteady.run (ParseState.beside_start h)
  have hfaults := hbeside.faults
  rw [parse_eq, parse_eq]
  by_cases hnone : (Grammar.program (.start tokens [])).2.faults = []
  · have hnone' : (Grammar.program (.start tokens' [])).2.faults = [] := by
      simpa [hnone] using hfaults.symm
    left
    refine ⟨_, if_pos (by simp [hnone]), ?_⟩
    rw [if_pos (by simp [hnone']), hvalue]
  · have hnone' : (Grammar.program (.start tokens' [])).2.faults ≠ [] := by
      intro hnil
      rw [hnil, List.map_nil, List.map_eq_nil_iff] at hfaults
      exact hnone hfaults
    right
    refine ⟨_, _, if_neg (by simpa using hnone), if_neg (by simpa using hnone'), ?_⟩
    rw [List.map_reverse, List.map_reverse, hfaults]

/-- A run of minus signs is one fault, however long it is: whatever stands before and after
    it, three signs or more parse to the same tree, or to the same faults in the same order. -/
theorem length_of_run_never_matters (before after : List Token) {n m : Nat} (hn : 3 ≤ n)
    (hm : 3 ≤ m) {tokens tokens' : List (Located Token)}
    (htokens : tokens.map Located.value = before ++ List.replicate n (.symbol .minus) ++ after)
    (htokens' : tokens'.map Located.value = before ++ List.replicate m (.symbol .minus) ++ after) :
    (∃ e, parse tokens [] = .ok e ∧ parse tokens' [] = .ok e) ∨
    ∃ faults faults', parse tokens [] = .error faults ∧ parse tokens' [] = .error faults' ∧
      faults.map Located.value = faults'.map Located.value ∧
      (faults.map SyntaxFault.diagnostic).map Diagnostic.message =
        (faults'.map SyntaxFault.diagnostic).map Diagnostic.message ∧
      faults.length = faults'.length := by
  have hstretched : Stretched 3 (tokens.map Located.value) (tokens'.map Located.value) := by
    rw [htokens, htokens', List.append_assoc, List.append_assoc]
    exact (Stretched.run hn hm (.refl after)).prepend before
  rcases parse_stretched hstretched with htree | ⟨faults, faults', hfaults, hfaults', hvalues⟩
  · exact .inl htree
  -- a message depends on the fault alone, not on its place
  · have hmessages : ∀ faults : List (Located SyntaxFault),
        (faults.map SyntaxFault.diagnostic).map Diagnostic.message =
          (faults.map Located.value).map SyntaxFault.message := by
      intro faults
      rw [List.map_map, List.map_map]
      rfl
    refine .inr ⟨faults, faults', hfaults, hfaults', hvalues, ?_, ?_⟩
    · rw [hmessages, hmessages, hvalues]
    · simpa using congrArg List.length hvalues

/-- An assignment with a run of signs in it: the first one is an operator, and the others are
    a fault. -/
def signedSum (n : Nat) : List (Located Token) :=
  [⟨.ident "x", ⟨0, 1⟩⟩, ⟨.symbol .assign, ⟨1, 2⟩⟩, ⟨.number "2", ⟨2, 3⟩⟩] ++
    (List.range n).map (fun i => ⟨.symbol .minus, ⟨i + 3, i + 4⟩⟩) ++
    [⟨.ident "y", ⟨n + 3, n + 4⟩⟩]

theorem tokens_signedSum (n : Nat) : (signedSum n).map Located.value =
    [.ident "x", .symbol .assign, .number "2"] ++ List.replicate n (.symbol .minus) ++
      [.ident "y"] := by
  have hsigns : ((List.range n).map fun i => (⟨.symbol .minus, ⟨i + 3, i + 4⟩⟩ : Located Token)).map
      Located.value = List.replicate n (.symbol .minus) := by
    rw [List.map_map]
    exact (List.map_const' ..).trans (by rw [List.length_range])
  unfold signedSum
  rw [List.map_append, List.map_append, hsigns]
  rfl

theorem signedSum_alike :
    ∃ faults, parse (signedSum 40) [] = .error faults ∧
      (faults.map SyntaxFault.diagnostic).map Diagnostic.message =
        ["unary '-' applies only to number literals"] := by
  have hthree : (parse (signedSum 3) []).mapError
      (fun faults => (faults.map SyntaxFault.diagnostic).map Diagnostic.message) =
        .error ["unary '-' applies only to number literals"] := by decide +kernel
  rcases length_of_run_never_matters _ _ (by decide) (by decide) (tokens_signedSum 3)
      (tokens_signedSum 40) with
    ⟨e, htree, -⟩ | ⟨faults, faults', hfaults, hfaults', -, hmessages, -⟩
  · rw [htree] at hthree
    cases hthree
  · rw [hfaults] at hthree
    exact ⟨faults', hfaults', hmessages.symm.trans (Except.error.inj hthree)⟩

end Mlog
