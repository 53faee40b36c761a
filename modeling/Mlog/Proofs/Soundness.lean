import Mlog.Expr.Equality
import Mlog.Proofs.Derivation
import Mlog.Proofs.Steps

/-! # The parser is sound for the grammar

    A parse that notes no fault has read a derivation: the tokens that it
    moved past are those of the phrase whose tree it gives, none of them
    skipped and none of them used twice.

    * `Reads P p R`: the parser `p`, at a token as `P` says, either notes a
      fault or reads tokens and gives a value as `R` says.  A fault that has
      been noted stays noted, so what is done after one, to find more of
      them, never counts.
    * `SoundInner`: the parsers of one nesting level, given those of the
      level further in.  The induction on the height of the tower puts the
      levels together. -/

namespace Mlog

open Mlog.Derivation

/-! ## Section 1: Contracts -/

/-- A parse without comments that has not been given up, before tokens of
    which only the last one is the end of the file. -/
structure ParseState.Ready (s : ParseState) : Prop where
  comments : s.comments = []
  going : s.aborted = false
  closed : ∃ before, s.tokens = before ++ [.eof] ∧ .eof ∉ before

/-- If the token under the cursor is not the end of the file, there is one
    after it. -/
theorem ParseState.Ready.advance {s : ParseState} (h : s.Ready) (hne : s.current.value ≠ .eof) :
    s.advance.Ready ∧ s.tokens = s.current.value :: s.advance.tokens := by
  obtain ⟨before, hbefore, heof⟩ := h.closed
  rw [tokens_eq] at hbefore
  cases before with
  | nil => exact absurd (List.cons.inj hbefore).1 hne
  | cons t before =>
    obtain ⟨rfl, htail⟩ := List.cons.inj hbefore
    obtain ⟨u, us, hus⟩ : ∃ u us, before ++ [Token.eof] = u :: us :=
      List.exists_cons_of_ne_nil (by simp)
    have hcurrent : s.tokens = s.current.value :: u :: us := by
      rw [tokens_eq, htail, ← hus]
      rfl
    have htokens := ParseState.tokens_advance hcurrent
    refine ⟨⟨by simp [h.comments], by simp [h.going], before, ?_, ?_⟩, ?_⟩
    · exact htokens.trans hus.symm
    · exact fun hmem => heof (List.mem_cons_of_mem _ hmem)
    · rw [htokens, hcurrent]

/-- At the end of the file nothing else is ahead. -/
theorem ParseState.Ready.tokens_eq_of_eof {s : ParseState} (h : s.Ready)
    (heof : s.current.value = .eof) : s.tokens = [.eof] := by
  obtain ⟨before, hbefore, hnot⟩ := h.closed
  cases before with
  | nil => exact hbefore
  | cons t before =>
    rw [tokens_eq, heof] at hbefore
    obtain ⟨rfl, _⟩ := List.cons.inj hbefore
    exact absurd List.mem_cons_self hnot

/-- What a parser reads if it notes no fault; see the head of the module. -/
structure Reads {α : Type} (P : Token → Prop) (p : Parse α)
    (R : List Token → α → Token → Prop) : Prop where
  reads : ∀ s, s.Ready → P s.current.value → (p s).2.faults = [] →
    (p s).2.Ready ∧ ∃ used, s.tokens = used ++ (p s).2.tokens ∧
      R used (p s).1 (p s).2.current.value

namespace Reads

variable {α β : Type} {P Q : Token → Prop} {p : Parse α} {R S : List Token → α → Token → Prop}

theorem pre (h : Reads P p R) (hpre : ∀ t, Q t → P t) : Reads Q p R :=
  ⟨fun _ hready hQ => h.reads _ hready (hpre _ hQ)⟩

theorem post (h : Reads P p R) (hpost : ∀ used a t, R used a t → S used a t) : Reads P p S := by
  refine ⟨fun s hready hP hfaults => ?_⟩
  obtain ⟨hready', used, hused, hR⟩ := h.reads s hready hP hfaults
  exact ⟨hready', used, hused, hpost _ _ _ hR⟩

theorem pure (a : α) (h : ∀ t, P t → R [] a t) : Reads P (pure a : Parse α) R :=
  ⟨fun _ hready hP _ => ⟨hready, [], rfl, h _ hP⟩⟩

/-- A parser that noted no fault by the end noted none on the way. -/
theorem faults_eq_nil {f : α → Parse β} [hf : ∀ a, Keeps (f a)] {s : ParseState}
    (h : (f (p s).1 (p s).2).2.faults = []) : (p s).2.faults = [] :=
  Classical.byContradiction fun hne => (hf _).keeps sticky_faulty hne h

/-- One parser after another. -/
theorem bind {f : α → Parse β} [∀ a, Keeps (f a)] {T : List Token → β → Token → Prop}
    (hp : Reads P p R)
    (hf : ∀ used a, Reads (R used a) (f a) fun more b t => T (used ++ more) b t) :
    Reads P (p >>= f) T := by
  have hbind : ∀ s, (p >>= f) s = f (p s).1 (p s).2 := fun _ => rfl
  refine ⟨fun s hready hP hfaults => ?_⟩
  rw [hbind] at hfaults ⊢
  obtain ⟨hready₁, used, hused, hR⟩ := hp.reads s hready hP (faults_eq_nil hfaults)
  obtain ⟨hready₂, more, hmore, hT⟩ := (hf used _).reads _ hready₁ hR hfaults
  exact ⟨hready₂, used ++ more, by rw [hused, hmore, List.append_assoc], hT⟩

/-- What held before a phrase was read is not forgotten. -/
theorem framed (h : Reads (fun _ => True) p R) :
    Reads P p fun used a t => R used a t ∧ ∃ u, P u := by
  refine ⟨fun s hready hP hfaults => ?_⟩
  obtain ⟨hready', used, hused, hR⟩ := h.reads s hready trivial hfaults
  exact ⟨hready', used, hused, hR, s.current.value, hP⟩

/-! ## Section 2: Steps -/

section

variable {token : Token} {T : List Token → β → Token → Prop}

/-- Looking at the token under the cursor, and then going on. -/
theorem peek {f : Token → Parse β} (h : ∀ t, Reads (fun u => u = t ∧ P u) (f t) T) :
    Reads P (Parse.peek >>= f) T :=
  ⟨fun s hready hP => (h s.current.value).reads s hready ⟨rfl, hP⟩⟩

/-- Asking for the place of the cursor, and then going on. -/
theorem here {f : Span → Parse β} (h : ∀ span, Reads P (f span) T) :
    Reads P (Parse.here >>= f) T :=
  ⟨fun s hready hP => (h s.current.span).reads s hready hP⟩

/-- Moving past a token, and then going on. -/
theorem advance {k : Unit → Parse β} (hne : token ≠ .eof) (hP : ∀ t, P t → t = token)
    (h : Reads (fun _ => ∃ u, P u) (k ()) fun more b t => T (token :: more) b t) :
    Reads P (Parse.advance >>= k) T := by
  have hbind : ∀ s, (Parse.advance >>= k) s = k () s.advance := fun _ => rfl
  refine ⟨fun s hready hs hfaults => ?_⟩
  rw [hbind] at hfaults ⊢
  have htoken := hP _ hs
  obtain ⟨hready', htokens⟩ := hready.advance (by rwa [htoken])
  obtain ⟨hready'', more, hmore, hT⟩ := h.reads _ hready' ⟨_, hs⟩ hfaults
  exact ⟨hready'', token :: more, by rw [htokens, hmore, htoken]; rfl, hT⟩

/-- Moving past a token if it is there, and then going on. -/
theorem eat {f : Bool → Parse β} (hne : token ≠ .eof)
    (hfound : Reads (fun _ => ∃ u, P u) (f true) fun more b t => T (token :: more) b t)
    (hmissing : Reads (fun t => t ≠ token ∧ P t) (f false) T) :
    Reads P (Parse.eat token >>= f) T := by
  refine ⟨fun s hready hP hfaults => ?_⟩
  rw [Parse.eat_bind] at hfaults ⊢
  by_cases htoken : s.current.value = token
  · rw [if_pos htoken] at hfaults ⊢
    obtain ⟨hready', htokens⟩ := hready.advance (by rwa [htoken])
    obtain ⟨hready'', more, hmore, hT⟩ := hfound.reads _ hready' ⟨_, hP⟩ hfaults
    exact ⟨hready'', token :: more, by rw [htokens, hmore, htoken]; rfl, hT⟩
  · rw [if_neg htoken] at hfaults ⊢
    exact hmissing.reads s hready ⟨htoken, hP⟩ hfaults

/-- Moving past a token whether or not it is there, and then going on. -/
theorem eatOptional {k : Unit → Parse β} (hne : token ≠ .eof)
    (hfound : Reads (fun _ => ∃ u, P u) (k ()) fun more b t => T (token :: more) b t)
    (hmissing : Reads (fun t => t ≠ token ∧ P t) (k ()) T) :
    Reads P (Functor.discard (Parse.eat token) >>= k) T := by
  have hdiscard : (Functor.discard (Parse.eat token) >>= k) =
      (Parse.eat token >>= fun _ => k ()) := rfl
  rw [hdiscard]
  exact eat hne hfound hmissing

end

/-- There are no comments to skip. -/
theorem skipComments {k : Unit → Parse β} {T : List Token → β → Token → Prop}
    (h : Reads P (k ()) T) : Reads P (Parse.skipComments >>= k) T := by
  have hbind : ∀ s, (Parse.skipComments >>= k) s = k () s.skipComments := fun _ => rfl
  refine ⟨fun s hready hP hfaults => ?_⟩
  rw [hbind, ParseState.skipComments_of_nil hready.comments] at hfaults ⊢
  exact h.reads s hready hP hfaults

/-- A fault that is noted before the parse is given up is there. -/
theorem faults_report_ne_nil {s : ParseState} (hready : s.Ready) (fault : SyntaxFault)
    (span : Span) : (s.report fault span).faults ≠ [] := by
  simp [ParseState.faults_report_of_going hready.going]

/-- After a fault has been noted, anything may be said. -/
theorem reportAt (fault : SyntaxFault) (span : Span) {T : List Token → Unit → Token → Prop} :
    Reads P (Parse.reportAt fault span) T :=
  ⟨fun _ hready _ hnone => absurd hnone (faults_report_ne_nil hready _ _)⟩

theorem report (fault : SyntaxFault) {T : List Token → Unit → Token → Prop} :
    Reads P (Parse.report fault) T :=
  ⟨fun _ hready _ hnone => absurd hnone (faults_report_ne_nil hready _ _)⟩

/-- What is done after a fault only has to keep it. -/
theorem afterFault {k : α → Parse β} [∀ a, Keeps (k a)] {T : List Token → β → Token → Prop}
    (hp : Reads P p fun _ _ _ => False) : Reads P (p >>= k) T :=
  hp.bind fun _ _ => ⟨fun _ _ h => h.elim⟩

/-- A parser that reads one certain token, and then going on. -/
theorem bindToken {token : Token} {p : Parse Unit} {k : Unit → Parse β} [∀ u, Keeps (k u)]
    {T : List Token → β → Token → Prop}
    (hp : Reads P p fun used _ _ => used = [token] ∧ ∃ u, P u)
    (h : Reads (fun _ => ∃ u, P u) (k ()) fun more b t => T (token :: more) b t) :
    Reads P (p >>= k) T := by
  refine hp.bind fun used _ => ⟨fun s hready hs hfaults => ?_⟩
  obtain ⟨rfl, hP⟩ := hs
  exact h.reads s hready hP hfaults

/-- Moving past a token that has to be there, and then going on. -/
theorem expect {token : Token} {k : Unit → Parse β} [∀ u, Keeps (k u)]
    {T : List Token → β → Token → Prop} (hne : token ≠ .eof)
    (h : Reads (fun _ => ∃ u, P u) (k ()) fun more b t => T (token :: more) b t) :
    Reads P (Parse.expect token >>= k) T :=
  bindToken (eat hne (.pure _ fun _ hP => ⟨rfl, hP⟩) (peek fun _ => report _)) h

/-- Moving past a name that has to be there, and then going on. -/
theorem expectName {k : String → Parse β} [∀ name, Keeps (k name)]
    {T : List Token → β → Token → Prop}
    (h : ∀ name, Reads (fun _ => ∃ u, P u) (k name) fun more b t => T (.ident name :: more) b t) :
    Reads P (Parse.expectName >>= k) T := by
  have hname : Reads P Parse.expectName
      fun used name _ => used = [.ident name] ∧ ∃ u, P u := by
    refine peek fun t => ?_
    cases t with
    | ident name =>
      refine advance (by simp) (fun t h => h.1) (Reads.pure _ ?_)
      rintro t ⟨u, _, hP⟩
      exact ⟨rfl, u, hP⟩
    | _ => exact afterFault (report _)
  refine hname.bind fun used name => ⟨fun s hready hs hfaults => ?_⟩
  obtain ⟨rfl, hP⟩ := hs
  exact (h name).reads s hready hP hfaults

/-- One round of a repetition, after `used` was read and `a` was made of it:
    either it reads nothing and ends where `J` holds, or it reads more and keeps
    the invariant `I`. -/
def Round (I J : List Token → α → Token → Prop) (used : List Token) (a : α)
    (more : List Token) (next : Option α) (t : Token) : Prop :=
  match next with
  | none => more = [] ∧ J used a t
  | some b => more ≠ [] ∧ I (used ++ more) b t

/-- A repetition keeps the invariant `I` of its rounds up to the end, where `J`
    holds.  Since each round moves on, it ends only where a round says so. -/
theorem iterate {step : α → Parse (Option α)} [∀ a, Keeps (step a)]
    {I J : List Token → α → Token → Prop}
    (hstep : ∀ used a, Reads (I used a) (step a) (Round I J used a)) (used : List Token) (a : α) :
    Reads (I used a) (Parse.iterate step a) fun more b t => J (used ++ more) b t := by
  refine ⟨fun s => ?_⟩
  fun_induction Parse.iterate step a s generalizing used with
  | case1 a s s' hround =>
    intro hready hI hfaults
    have h := (hstep used a).reads s hready hI
    simp only [hround] at h
    obtain ⟨hready', more, hmore, rfl, hJ⟩ := h hfaults
    exact ⟨hready', [], hmore, by rwa [List.append_nil]⟩
  | case2 a s b s' hround _ ih =>
    intro hready hI hfaults
    have h := (hstep used a).reads s hready hI
    simp only [hround] at h
    -- a fault of this round would still be there at the end
    have hround_faults : s'.faults = [] := Classical.byContradiction fun hne =>
      (KeepsAt.iterate b).keeps sticky_faulty hne hfaults
    obtain ⟨hready₁, more, hmore, _, hI₁⟩ := h hround_faults
    obtain ⟨hready₂, more₂, hmore₂, hJ⟩ := ih (used ++ more) hready₁ hI₁ hfaults
    exact ⟨hready₂, more ++ more₂, by rw [hmore, hmore₂, List.append_assoc],
      by rwa [← List.append_assoc]⟩
  -- a round that goes on has read something, so it is never cut short
  | case3 a s b s' hround hlt =>
    intro hready hI hfaults
    have h := (hstep used a).reads s hready hI
    simp only [hround] at h
    obtain ⟨_, more, hmore, hne, _⟩ := h hfaults
    exact absurd (ParseState.length_ahead_lt hne hmore) hlt

end Reads

/-! ## Section 3: Binding powers and layers -/

namespace Tier

/-- How tight a layer is. -/
def rank : Tier → Nat
  | or => 0
  | and => 1
  | equality => 2
  | comparison => 3
  | additive => 4
  | multiplicative => 5
  | power => 6

/-- How tightly the operators of a layer hold their operands. -/
def binding (tier : Tier) : Binding :=
  if tier = power then ⟨15, 14⟩ else ⟨2 * tier.rank + 2, 2 * tier.rank + 3⟩

theorem rank_le (tier : Tier) : tier.rank ≤ 6 := by cases tier <;> decide

theorem tighter?_of_ne {tier : Tier} (h : tier ≠ power) :
    ∃ next, tier.tighter? = some next ∧ next.rank = tier.rank + 1 := by
  cases tier with
  | power => exact absurd rfl h
  | _ => exact ⟨_, rfl, rfl⟩

/-- The operators that hold an operand with at least the given power are of the
    layer or of tighter ones. -/
def Covers (tier : Tier) (power : Nat) : Prop :=
  ∀ tier' : Tier, power ≤ tier'.binding.left → tier.rank ≤ tier'.rank

theorem covers_zero : or.Covers 0 := fun _ _ => Nat.zero_le _

/-- The right operand of an operator that groups to the left is of the next
    tighter layer. -/
theorem covers_right {tier next : Tier} (h : tier.tighter? = some next) :
    next.Covers tier.binding.right := by
  cases tier <;> cases h <;> (intro tier' hle; cases tier' <;> revert hle <;> decide)

theorem covers_power : power.Covers power.binding.right := by
  intro tier' hle
  cases tier' <;> revert hle <;> decide

/-- No operator leaves `**` to what follows its right operand. -/
theorem right_le_power (tier : Tier) : tier.binding.right ≤ power.binding.left := by
  cases tier <;> decide

/-- An operator that groups to the left takes an operation as its left operand
    only if that is of its own layer or of a tighter one. -/
theorem rank_le_of_lt_right {tier tier' : Tier} (hne : tier ≠ power)
    (h : tier.binding.left < tier'.binding.right) : tier.rank ≤ tier'.rank := by
  revert h hne
  cases tier <;> cases tier' <;> decide

end Tier

/-- Each binary operator is one of its layer. -/
theorem tier_of_binaryOperator? {t : Token} {op : String} {binding : Binding}
    (h : t.binaryOperator? = some (op, binding)) :
    ∃ tier : Tier, (t, op) ∈ tier.signs ∧ binding = tier.binding := by
  have hmem : ∃ tier ∈ [Tier.or, .and, .equality, .comparison, .additive, .multiplicative, .power],
      (t, op) ∈ tier.signs ∧ binding = tier.binding := by
    unfold Token.binaryOperator? at h
    split at h <;> simp only [Option.some.injEq, Prod.mk.injEq, reduceCtorEq] at h <;>
      obtain ⟨rfl, rfl⟩ := h <;> decide
  obtain ⟨tier, _, hsign⟩ := hmem
  exact ⟨tier, hsign⟩

/-- An operation of a layer is one of any looser layer. -/
theorem Derivation.Operation.loosen {tier tier' : Tier} {ts : List Token} {e : Expr}
    (h : Operation tier' ts e) (hle : tier.rank ≤ tier'.rank) : Operation tier ts e := by
  by_cases heq : tier.rank = tier'.rank
  · have hsame : tier = tier' := by
      revert heq
      cases tier <;> cases tier' <;> decide
    rwa [hsame]
  · have hne : tier ≠ .power := by
      rintro rfl
      have hmax := tier'.rank_le
      exact heq (Nat.le_antisymm hle hmax)
    obtain ⟨next, hnext, hrank⟩ := Tier.tighter?_of_ne hne
    exact .tighter hnext (h.loosen (by omega))
termination_by tier'.rank - tier.rank

/-- The token is no operator that holds its left operand with at least the
    given power. -/
def Stops (power : Nat) (t : Token) : Prop :=
  ∀ op binding, t.binaryOperator? = some (op, binding) → binding.left < power

/-! ## Section 4: Expressions of one level -/

/-- The parsers of a level read what they are for. -/
structure SoundInner (inner : Inner) : Prop where
  expr : Reads (fun _ => True) inner.expr fun used e _ => Expression used e ∧ used ≠ []
  statements : Reads (fun _ => True) inner.statements fun used es _ => Statements used es
  rightOperand : ∀ power : Nat, Reads (fun _ => True) (inner.rightOperand power)
    fun used e t => (∀ tier : Tier, tier.Covers power → Operation tier used e) ∧ used ≠ [] ∧
      Stops power t
  negated : Reads (fun _ => True) inner.negated fun used e _ => Unary used e ∧ used ≠ []
  elseIf : Reads (fun _ => True) inner.elseIf fun used e _ => Branch used e ∧ used ≠ []

namespace Grammar

variable {inner : Inner} [KeepsInner inner] {P : Token → Prop}

theorem reads_block (h : SoundInner inner) :
    Reads (fun _ => True) (block inner) fun used e _ => Block used e := by
  refine .expect (by simp) (h.statements.framed.bind fun used es => ?_)
  refine .expect (by simp) (.pure _ ?_)
  rintro t ⟨_, hes, _⟩
  exact .braces hes

theorem reads_property :
    Reads (fun _ => True) property fun used name _ => Property used name := by
  refine .eatOptional (by simp) ?_ ?_
  · exact .expectName fun name => .pure _ fun t _ => .signed name
  · exact .expectName fun name => .pure _ fun t _ => .bare name

theorem reads_builtin :
    Reads (fun _ => True) builtin fun used e _ => Primary (.symbol .atSign :: used) e := by
  refine .expectName fun name => .eat (by simp) ?_ ?_
  · refine reads_property.framed.bind fun used property => .pure _ ?_
    rintro t ⟨hproperty, _⟩
    simpa using Primary.builtinProperty name hproperty
  · exact .pure _ fun t _ => .builtin name

omit [KeepsInner inner] in
theorem reads_nextArgument (h : SoundInner inner) (used : List Token) (args : List Expr) :
    Reads (fun _ => SomeArguments used args.reverse) (nextArgument inner args)
      (Reads.Round (fun used args _ => SomeArguments used args.reverse)
        (fun used args _ => SomeArguments used args.reverse) used args) := by
  refine .eat (by simp) ?_ (.pure _ fun t h => ⟨rfl, h.2⟩)
  refine h.expr.framed.bind fun more e => .pure _ ?_
  rintro t ⟨⟨hexpr, _⟩, _, _, hargs⟩
  refine ⟨by simp, ?_⟩
  simpa using SomeArguments.snoc hargs hexpr

theorem reads_arguments (h : SoundInner inner) :
    Reads (fun _ => True) (arguments inner) fun used args _ =>
      ∃ ts, used = ts ++ [.symbol .rparen] ∧ Arguments ts args := by
  refine .eat (by simp) (.pure _ fun t _ => ⟨[], rfl, .none⟩) ?_
  refine (h.expr.pre fun _ _ => trivial).bind fun used first => ?_
  have hmore := Reads.iterate (reads_nextArgument h) used [first]
  refine (hmore.pre fun t h => .one h.1).bind fun more args => ?_
  refine .expect (by simp) (.pure _ ?_)
  rintro t ⟨_, hargs⟩
  exact ⟨_, by simp, .some hargs⟩

theorem reads_suffix (h : SoundInner inner) (name : String) :
    Reads (fun _ => True) (suffix inner name) fun used e _ => Primary (.ident name :: used) e := by
  refine .peek fun t => ?_
  split
  · refine .advance (by simp) (fun t h => h.1) ((reads_arguments h).framed.bind fun used args => ?_)
    refine .pure _ ?_
    rintro t ⟨⟨ts, rfl, hargs⟩, _⟩
    simpa using Primary.call name hargs
  · refine .advance (by simp) (fun t h => h.1) (h.expr.framed.bind fun used address => ?_)
    refine .expect (by simp) (.pure _ ?_)
    rintro t ⟨_, ⟨haddress, _⟩, _⟩
    exact .load name haddress
  · refine .advance (by simp) (fun t h => h.1) (reads_property.framed.bind fun used property => ?_)
    refine .pure _ ?_
    rintro t ⟨hproperty, _⟩
    simpa using Primary.property name hproperty
  · exact .pure _ fun t _ => .var name

theorem reads_branch (h : SoundInner inner) :
    Reads (fun _ => True) (branch inner) fun used e _ => Branch used e ∧ used ≠ [] := by
  refine .expect (by simp) (h.expr.framed.bind fun ts cond => ?_)
  refine (reads_block h).framed.bind fun us yes => .eat (by simp) (.peek fun t => ?_) ?_
  · by_cases ht : t = .keyword .if_
    · simp only [ht, if_true]
      refine h.elseIf.framed.bind fun vs no => .pure _ ?_
      rintro t ⟨⟨hno, _⟩, _, _, _, hyes, _, ⟨hcond, _⟩, _⟩
      refine ⟨?_, by simp⟩
      simpa using Branch.elseIf hcond hyes hno
    · simp only [ht]
      refine (reads_block h).framed.bind fun vs no => .pure _ ?_
      rintro t ⟨hno, _, _, _, hyes, _, ⟨hcond, _⟩, _⟩
      refine ⟨?_, by simp⟩
      simpa using Branch.no hcond hyes hno
  · refine .pure _ ?_
    rintro t ⟨_, hyes, _, ⟨hcond, _⟩, _⟩
    refine ⟨?_, by simp⟩
    simpa using Branch.yes hcond hyes

theorem reads_nextArm (h : SoundInner inner) (used : List Token) (arms : List (Expr × Expr)) :
    Reads (fun _ => Arms used arms.reverse) (nextArm inner arms)
      (Reads.Round (fun used arms _ => Arms used arms.reverse)
        (fun used arms _ => Arms used arms.reverse) used arms) := by
  refine .skipComments (.eat (by simp) ?_ (.pure _ fun t h => ⟨rfl, h.2⟩))
  refine h.expr.framed.bind fun us pattern => (reads_block h).framed.bind fun vs body => .pure _ ?_
  rintro t ⟨hbody, _, ⟨hpattern, _⟩, _, _, harms⟩
  refine ⟨by simp, ?_⟩
  simpa using Arms.snoc harms hpattern hbody

theorem reads_otherwise (h : SoundInner inner) :
    Reads (fun _ => True) (otherwise inner) fun used e _ => Otherwise used e := by
  refine .eat (by simp) ?_ (.pure _ fun t _ => .none)
  exact ((reads_block h).pre fun _ _ => trivial).post fun _ _ _ hblock => .some hblock

theorem reads_closeSelect :
    Reads P closeSelect fun used _ _ => used = [.symbol .rbrace] ∧ ∃ u, P u :=
  .skipComments (.eat (by simp) (.pure _ fun _ hP => ⟨rfl, hP⟩) (.peek fun _ => .report _))

theorem reads_select (h : SoundInner inner) :
    Reads (fun _ => True) (select inner) fun used e _ => Primary used e ∧ used ≠ [] := by
  refine .expect (by simp) (h.expr.framed.bind fun ts subject => .expect (by simp) ?_)
  have harms := Reads.iterate (reads_nextArm h) [] []
  refine (harms.pre (Q := fun _ => True) fun _ _ => .nil).framed.bind fun us arms => ?_
  refine (reads_otherwise h).framed.bind fun vs other => ?_
  refine .bindToken reads_closeSelect (.pure _ ?_)
  rintro t ⟨_, hother, _, harms, _, _, ⟨hsubject, _⟩, _⟩
  refine ⟨?_, by simp⟩
  simpa using Primary.select hsubject harms hother

theorem reads_primary (h : SoundInner inner) :
    Reads P (primary inner) fun used e _ => Primary used e ∧ used ≠ [] := by
  refine .peek fun t => ?_
  split
  · rename_i text
    exact .advance (by simp) (fun t h => h.1) (.pure _ fun t _ => ⟨.number text, by simp⟩)
  · rename_i text
    exact .advance (by simp) (fun t h => h.1) (.pure _ fun t _ => ⟨.str text, by simp⟩)
  · exact .advance (by simp) (fun t h => h.1) (.pure _ fun t _ => ⟨.true_, by simp⟩)
  · exact .advance (by simp) (fun t h => h.1) (.pure _ fun t _ => ⟨.false_, by simp⟩)
  · exact .advance (by simp) (fun t h => h.1) (.pure _ fun t _ => ⟨.null, by simp⟩)
  · refine .advance (by simp) (fun t h => h.1) ((reads_builtin.pre fun _ _ => trivial).post ?_)
    exact fun _ _ _ hbuiltin => ⟨hbuiltin, by simp⟩
  · rename_i name
    refine .advance (by simp) (fun t h => h.1)
      (((reads_suffix h name).pre fun _ _ => trivial).post ?_)
    exact fun _ _ _ hsuffix => ⟨hsuffix, by simp⟩
  · exact ((reads_branch h).pre fun _ _ => trivial).post fun _ _ _ hbranch =>
      ⟨.branch hbranch.1, hbranch.2⟩
  · exact (reads_select h).pre fun _ _ => trivial
  · refine .advance (by simp) (fun t h => h.1) (h.expr.framed.bind fun used e => ?_)
    refine .expect (by simp) (.pure _ ?_)
    rintro t ⟨_, ⟨hexpr, _⟩, _⟩
    exact ⟨.parens hexpr, by simp⟩
  -- no expression starts here
  · exact .afterFault (.report _)
  · exact .afterFault (.report _)
  · exact .afterFault (.report _)

theorem reads_negation (h : SoundInner inner) :
    Reads P (negation inner) fun used e _ => Unary used e ∧ used ≠ [] := by
  refine .peek fun t => ?_
  split
  · refine .advance (by simp) (fun t h => h.1) (h.negated.framed.bind fun used e => .pure _ ?_)
    rintro t ⟨⟨he, _⟩, _⟩
    exact ⟨by simpa using Unary.not he, by simp⟩
  · refine .advance (by simp) (fun t h => h.1) (h.negated.framed.bind fun used e => .pure _ ?_)
    rintro t ⟨⟨he, _⟩, _⟩
    exact ⟨by simpa using Unary.bang he, by simp⟩
  · exact (reads_primary h).post fun _ _ _ hprimary => ⟨.primary hprimary.1, hprimary.2⟩

theorem reads_unary (h : SoundInner inner) :
    Reads (fun _ => True) (unary inner) fun used e _ => Unary used e ∧ used ≠ [] := by
  refine .peek fun t => ?_
  by_cases ht : t = .symbol .minus
  · simp only [ht, if_true]
    refine .here fun start => .advance (by simp) (fun t h => h.1) (.peek fun t => ?_)
    split
    · rename_i text
      exact .advance (by simp) (fun t h => h.1) (.pure _ fun t _ => ⟨.negative text, by simp⟩)
    · exact .afterFault (.reportAt _ _)
  · simp only [ht]
    exact reads_negation h

/-! ## Section 5: Operations -/

/-- What an operation so far can be when the token `t` follows: a single
    operand, or an operation of a layer such that an operator which would take
    its right operand away is not what follows. -/
def Pending (power : Nat) (used : List Token) (left : Expr) (t : Token) : Prop :=
  used ≠ [] ∧ (Unary used left ∨ ∃ tier : Tier, power ≤ tier.binding.left ∧
    Operation tier used left ∧ Stops tier.binding.right t)

theorem Pending.operation {power : Nat} {tier : Tier} {used : List Token} {left : Expr} {t : Token}
    (h : Pending power used left t) (hcovers : tier.Covers power) : Operation tier used left := by
  rcases h.2 with hunary | ⟨tier', hpower, hoperation, _⟩
  · exact Operation.loosen (.operand hunary) tier.rank_le
  · exact hoperation.loosen (hcovers tier' hpower)

/-- Two operations are put together as their layers say. -/
theorem Pending.binary {power : Nat} {tier : Tier} {ts us : List Token} {left right : Expr}
    {sign : Token} {op : String} (h : Pending power ts left sign)
    (hsign : sign.binaryOperator? = some (op, tier.binding)) (hmem : (sign, op) ∈ tier.signs)
    (hright : ∀ next : Tier, next.Covers tier.binding.right → Operation next us right) :
    Operation tier (ts ++ sign :: us) (.binary op left right) := by
  by_cases htier : tier = .power
  · subst htier
    obtain ⟨rfl, rfl⟩ : sign = .symbol .power ∧ op = "**" := by
      simpa [Tier.signs] using hmem
    rcases h.2 with hunary | ⟨tier', _, _, hstops⟩
    · exact .power hunary (hright .power Tier.covers_power)
    · -- nothing but a single operand is left for `**`
      exact absurd (hstops _ _ hsign) (Nat.not_lt.mpr tier'.right_le_power)
  · obtain ⟨next, hnext, _⟩ := Tier.tighter?_of_ne htier
    refine .left hnext ?_ hmem (hright next (Tier.covers_right hnext))
    rcases h.2 with hunary | ⟨tier', _, hoperation, hstops⟩
    · exact Operation.loosen (.operand hunary) tier.rank_le
    · exact hoperation.loosen (Tier.rank_le_of_lt_right htier (hstops _ _ hsign))

omit [KeepsInner inner] in
theorem reads_nextOperation (h : SoundInner inner) (power : Nat) (used : List Token) (left : Expr) :
    Reads (Pending power used left) (nextOperation inner power left)
      (Reads.Round (Pending power)
        (fun used e t => Pending power used e t ∧ Stops power t) used left) := by
  refine .peek fun t => ?_
  cases hoperator : t.binaryOperator? with
  | none =>
    refine .pure _ fun u hu => ⟨rfl, hu.2, ?_⟩
    intro op binding hop
    rw [hu.1, hoperator] at hop
    exact absurd hop (by simp)
  | some operator =>
    obtain ⟨op, binding⟩ := operator
    obtain ⟨tier, hmem, rfl⟩ := tier_of_binaryOperator? hoperator
    by_cases hlt : tier.binding.left < power
    -- an operator that binds too loosely is left for an outer level
    · simp only [hlt, if_true]
      refine .pure _ fun u hu => ⟨rfl, hu.2, ?_⟩
      intro op' binding' hop
      rw [hu.1, hoperator] at hop
      obtain ⟨rfl, rfl⟩ := Prod.mk.inj (Option.some.inj hop)
      exact hlt
    · simp only [hlt, if_false]
      have hne : t ≠ .eof := by
        rintro rfl
        exact absurd hoperator (by simp [Token.binaryOperator?])
      -- otherwise the right operand follows, and takes all that binds tighter
      refine .advance hne (fun u hu => hu.1)
        ((h.rightOperand tier.binding.right).framed.bind fun us right => .pure _ ?_)
      rintro u ⟨⟨hus, _, hstops⟩, _, _, rfl, hpending⟩
      refine ⟨by simp, by simp, .inr ⟨tier, Nat.le_of_not_lt hlt, ?_, hstops⟩⟩
      simpa using hpending.binary hoperator hmem hus

theorem reads_binary (h : SoundInner inner) (power : Nat) :
    Reads (fun _ => True) (binary inner power) fun used e t =>
      (∀ tier : Tier, tier.Covers power → Operation tier used e) ∧ used ≠ [] ∧ Stops power t := by
  refine (reads_unary h).bind fun used first => ?_
  refine ((Reads.iterate (reads_nextOperation h power) used first).pre ?_).post ?_
  · exact fun t hunary => ⟨hunary.2, .inl hunary.1⟩
  · rintro more e t ⟨hpending, hstops⟩
    exact ⟨fun tier => hpending.operation, hpending.1, hstops⟩

/-! ## Section 6: Assignments -/

/-- The left sides of a chain of assignments with the signs after them; the
    latest one comes first. -/
inductive Links : List Token → List (Expr × Span) → Prop
  | nil : Links [] []
  | snoc {ts us target targets} (span) : Links ts targets → Operation .or us target →
      Links (ts ++ us ++ [.symbol .assign]) ((target, span) :: targets)

/-- A chain of assignments: its left sides, and the expression it ends in. -/
def ChainOf (used : List Token) (chain : Chain) (_ : Token) : Prop :=
  ∃ ts us, used = ts ++ us ∧ us ≠ [] ∧ Links ts chain.targets ∧ Operation .or us chain.last

theorem reads_link (h : SoundInner inner) {ts : List Token} {targets : List (Expr × Span)} :
    Reads (fun _ => Links ts targets) (link inner targets)
      fun used chain t => used ≠ [] ∧ ChainOf (ts ++ used) chain t := by
  refine .here fun start => (reads_binary h 0).framed.bind fun used e => .pure _ ?_
  rintro t ⟨⟨hoperation, hne, _⟩, _, hlinks⟩
  rw [List.append_nil]
  exact ⟨hne, ts, used, rfl, hne, hlinks, hoperation .or Tier.covers_zero⟩

theorem reads_nextAssignment (h : SoundInner inner) (used : List Token) (chain : Chain) :
    Reads (ChainOf used chain) (nextAssignment inner chain)
      (Reads.Round ChainOf ChainOf used chain) := by
  refine .peek fun t => ?_
  by_cases ht : t = .symbol .assign
  · simp only [ht, if_true]
    refine .here fun place => .advance (by simp) (fun t h => h.1) ?_
    have hlinks : ∀ _ : Token, (∃ u, u = .symbol .assign ∧ ChainOf used chain u) →
        Links (used ++ [.symbol .assign])
          ((chain.last, chain.start.merge place) :: chain.targets) := by
      rintro _ ⟨_, _, ts, us, rfl, _, hlinks, hlast⟩
      exact .snoc _ hlinks hlast
    refine ((reads_link h).pre hlinks).bind fun more next => .pure _ ?_
    rintro t ⟨_, hchain⟩
    refine ⟨by simp, ?_⟩
    simpa using hchain
  · simp only [ht]
    exact .pure _ fun u hu => ⟨rfl, hu.2⟩

theorem reads_assign (target value : Expr) (span : Span) :
    Reads P (assign target span value) fun used e t =>
      used = [] ∧ target.assignTo? value = some e ∧ P t := by
  unfold assign
  split
  · exact .pure _ fun t hP => ⟨rfl, rfl, hP⟩
  · exact .pure _ fun t hP => ⟨rfl, rfl, hP⟩
  · exact .pure _ fun t hP => ⟨rfl, rfl, hP⟩
  · exact .pure _ fun t hP => ⟨rfl, rfl, hP⟩
  · exact .afterFault (.reportAt _ _)

/-- The left sides take the value one after another, the latest one first. -/
theorem reads_assignAll (targets : List (Expr × Span)) (value : Expr) :
    Reads (fun _ => True)
      (targets.foldlM (fun value target => assign target.1 target.2 value) value)
      fun used e _ => used = [] ∧ ∀ ts us, Links ts targets → Expression us value →
        Expression (ts ++ us) e := by
  induction targets generalizing value with
  | nil =>
    refine .pure _ fun t _ => ⟨rfl, ?_⟩
    rintro _ us ⟨⟩ hvalue
    exact hvalue
  | cons target targets ih =>
    rw [List.foldlM_cons]
    refine (reads_assign target.1 value target.2).bind fun used e => ((ih e).framed).post ?_
    rintro more e' t ⟨⟨rfl, hothers⟩, _, rfl, hassign, _⟩
    refine ⟨rfl, ?_⟩
    intro ts us hlinks hvalue
    cases hlinks with
    | snoc span hlinks htarget =>
      have hinner := hothers _ _ hlinks (.assignment htarget hvalue hassign)
      simpa using hinner

theorem reads_assignment (h : SoundInner inner) :
    Reads (fun _ => True) (assignment inner) fun used e _ => Expression used e ∧ used ≠ [] := by
  refine ((reads_link h).pre fun _ _ => .nil).bind fun used first => ?_
  have hchain := Reads.iterate (reads_nextAssignment h) used first
  refine (hchain.pre fun t h => h.2).bind fun more chain => ?_
  refine (reads_assignAll chain.targets chain.last).framed.post ?_
  rintro used' e t ⟨⟨rfl, hassign⟩, _, ts, us, hused, hne, hlinks, hlast⟩
  have hexpr := hassign ts us hlinks (.operation hlast)
  rw [List.append_nil, hused]
  exact ⟨hexpr, by simp [hne]⟩

/-! ## Section 7: Statements -/

theorem reads_loop (h : SoundInner inner) :
    Reads P (loop inner) fun used e _ => BareStatement used e ∧ used ≠ [] := by
  refine .expect (by simp) (h.expr.framed.bind fun ts cond => ?_)
  refine (reads_block h).framed.bind fun us body => .pure _ ?_
  rintro t ⟨hbody, _, ⟨hcond, _⟩, _⟩
  exact ⟨by simpa using BareStatement.loop hcond hbody, by simp⟩

theorem reads_bareStatement (h : SoundInner inner) :
    Reads (fun _ => True) (bareStatement inner) fun used e _ =>
      BareStatement used e ∧ used ≠ [] := by
  refine .peek fun t => ?_
  by_cases ht : t = .keyword .while_
  · simp only [ht, if_true]
    exact reads_loop h
  · simp only [ht]
    exact (h.expr.pre fun _ _ => trivial).post fun _ _ _ hexpr => ⟨.expr hexpr.1, hexpr.2⟩

theorem reads_statement (h : SoundInner inner) :
    Reads (fun _ => True) (statement inner) fun used e _ => Statement used e ∧ used ≠ [] := by
  refine (reads_bareStatement h).bind fun used e => .eatOptional (by simp) ?_ ?_
  · refine .pure _ ?_
    rintro t ⟨_, hbare, _⟩
    exact ⟨.closed hbare, by simp⟩
  · refine .pure _ ?_
    rintro t ⟨_, hbare, hne⟩
    rw [List.append_nil]
    exact ⟨.bare hbare, hne⟩

/-- A parser that reads something is not recovered from. -/
theorem reads_recover {α β : Type} {p : Parse α} {k : α → Parse β} [∀ a, Keeps (k a)]
    {R : List Token → α → Token → Prop} {T : List Token → β → Token → Prop}
    (hp : Reads P p R) (hmoves : ∀ used a t, R used a t → used ≠ [])
    (hk : ∀ used a, Reads (R used a) (k a) fun more b t => T (used ++ more) b t) :
    Reads P (do
      let ahead := (← get).ahead.length
      let a ← p
      recover ahead
      k a) T := by
  have hrun : ∀ s : ParseState, (do
      let ahead := (← get).ahead.length
      let a ← p
      recover ahead
      k a : Parse β) s =
      k (p s).1 (if (p s).2.ahead.length = s.ahead.length then (p s).2.advance else (p s).2) :=
    fun _ => rfl
  refine ⟨fun s hready hP hfaults => ?_⟩
  rw [hrun] at hfaults ⊢
  -- without faults at the end there were none before
  have hfirst : (p s).2.faults = [] :=
    Reads.faults_eq_nil (f := fun a => do recover s.ahead.length; k a) hfaults
  obtain ⟨hready', used, hused, hR⟩ := hp.reads s hready hP hfirst
  have hmoved : ¬ (p s).2.ahead.length = s.ahead.length :=
    Nat.ne_of_lt (ParseState.length_ahead_lt (hmoves _ _ _ hR) hused)
  rw [if_neg hmoved] at hfaults ⊢
  obtain ⟨hready'', more, hmore, hT⟩ := (hk used _).reads _ hready' hR hfaults
  exact ⟨hready'', used ++ more, by rw [hused, hmore, List.append_assoc], hT⟩

theorem reads_takeComments {β : Type} {k : List Comment → Parse β}
    {T : List Token → β → Token → Prop} (h : ∀ cs, Reads (fun t => cs = [] ∧ P t) (k cs) T) :
    Reads P (Parse.takeComments >>= k) T := by
  have hbind : ∀ s, (Parse.takeComments >>= k) s = k s.passedComments s.skipComments :=
    fun _ => rfl
  refine ⟨fun s hready hP hfaults => ?_⟩
  have hpassed : s.passedComments = [] := by
    simp [ParseState.passedComments, hready.comments]
  rw [hbind, ParseState.skipComments_of_nil hready.comments] at hfaults ⊢
  exact (h _).reads s hready ⟨hpassed, hP⟩ hfaults

theorem reads_nextStatement (h : SoundInner inner) (closing : Token) (used : List Token)
    (stmts : List Expr) :
    Reads (fun _ => Statements used stmts.reverse) (nextStatement inner closing stmts)
      (Reads.Round (fun used stmts _ => Statements used stmts.reverse)
        (fun used stmts t => Statements used stmts.reverse ∧ (t = closing ∨ t = .eof))
        used stmts) := by
  refine .peek fun t => ?_
  by_cases ht : t = closing ∨ t = .eof
  · simp only [ht, if_true]
    refine .skipComments (.pure _ ?_)
    rintro u ⟨rfl, hstmts⟩
    exact ⟨rfl, hstmts, ht⟩
  · simp only [ht, if_false]
    refine reads_takeComments fun cs => ?_
    refine reads_recover (reads_statement h).framed (fun _ _ _ hs => hs.1.2) fun ts e => .pure _ ?_
    rintro u ⟨⟨hstmt, hne⟩, _, rfl, _, hstmts⟩
    rw [List.append_nil]
    exact ⟨hne, by simpa using Statements.snoc hstmts hstmt⟩

theorem reads_statements (h : SoundInner inner) (closing : Token) :
    Reads (fun _ => True) (statements inner closing) fun used es t =>
      Statements used es ∧ (t = closing ∨ t = .eof) := by
  have hstmts := Reads.iterate (reads_nextStatement h closing) [] []
  refine (hstmts.pre fun _ _ => .nil).bind fun used es => .pure _ ?_
  rintro t ⟨hes, ht⟩
  rw [List.append_nil]
  exact ⟨hes, ht⟩

/-! ## Section 8: The tower, and whole programs -/

/-- Giving up is a fault. -/
theorem reads_giveUp {α : Type} (a : α) {R : List Token → α → Token → Prop} :
    Reads P (giveUp a) R := by
  have hrun : ∀ s, (giveUp a s).2.faults = (s.report .tooDeep s.current.span).faults :=
    fun _ => rfl
  refine ⟨fun s hready _ hnone => ?_⟩
  rw [hrun] at hnone
  exact absurd hnone (Reads.faults_report_ne_nil hready _ _)

/-- The parsers of every level read what they are for. -/
theorem soundInner_level (n : Nat) : SoundInner (level n) := by
  induction n with
  | zero =>
    exact ⟨reads_giveUp _, reads_giveUp _, fun _ => reads_giveUp _, reads_giveUp _, reads_giveUp _⟩
  | succ n ih =>
    exact
      { expr := reads_assignment ih
        statements := (reads_statements ih (.symbol .rbrace)).post fun _ _ _ h => h.1
        rightOperand := reads_binary ih
        negated := reads_unary ih
        elseIf := reads_branch ih }

end Grammar

/-- A token list that ends in the only end of file in it is closed as it is. -/
theorem ParseState.ready_start {tokens : List (Located Token)} {before : List (Located Token)}
    {last : Located Token} (htokens : tokens = before ++ [last]) (hlast : last.value = .eof)
    (hbefore : ∀ t ∈ before, t.value ≠ .eof) :
    (start tokens []).Ready ∧ (start tokens []).tokens = tokens.map Located.value := by
  have hstart : (start tokens []).tokens = tokens.map Located.value :=
    tokens_start [] (by simp [htokens, hlast])
  refine ⟨⟨rfl, rfl, before.map Located.value, ?_, ?_⟩, hstart⟩
  · rw [hstart, htokens, List.map_append, List.map_cons, hlast]
    rfl
  · intro hmem
    obtain ⟨t, ht, heof⟩ := List.mem_map.mp hmem
    exact hbefore t ht heof

/-- What the parser accepts is a program, and its tree is the one that the
    grammar gives it.  The last token of the list is the only end of file, and
    no token is left over. -/
theorem parse_derives_program {tokens : List (Located Token)} {e : Expr}
    (heof : ∃ before last, tokens = before ++ [last] ∧ last.value = .eof ∧
      ∀ t ∈ before, t.value ≠ .eof)
    (hparse : parse tokens [] = .ok e) : Program (tokens.map Located.value) e := by
  obtain ⟨before, last, htokens, hlast, hbefore⟩ := heof
  obtain ⟨hready, hstart⟩ := ParseState.ready_start htokens hlast hbefore
  have hsound := Grammar.reads_statements (Grammar.soundInner_level nestingLimit) .eof
  obtain ⟨hnone, rfl⟩ := parse_eq_ok_iff.mp hparse
  obtain ⟨hready', used, hused, hstmts, hend⟩ := hsound.reads _ hready trivial hnone
  rw [hready'.tokens_eq_of_eof (by simpa using hend), hstart] at hused
  rw [hused]
  exact .statements hstmts

/-- Tokens in a row, each of them one character long. -/
def located (tokens : List Token) : List (Located Token) :=
  tokens.mapIdx fun i t => ⟨t, ⟨i, i + 1⟩⟩

/-- The tokens of `x = y = 2 ** 3 ** a * not b - 1; while x { }`. -/
def powersAndLoop : List (Located Token) :=
  located [.ident "x", .symbol .assign, .ident "y", .symbol .assign, .number "2", .symbol .power,
    .number "3", .symbol .power, .ident "a", .symbol .star, .keyword .not_, .ident "b",
    .symbol .minus, .number "1", .symbol .semicolon, .keyword .while_, .ident "x", .symbol .lbrace,
    .symbol .rbrace, .eof]

theorem powersAndLoop_derived :
    ∃ e, parse powersAndLoop [] = .ok e ∧ Program (powersAndLoop.map Located.value) e := by
  have hparse : parse powersAndLoop [] = .ok (.seq
      (.assign "x" (.assign "y" (.binary "-" (.binary "*" (.binary "**" (.num "2")
        (.binary "**" (.num "3") (.var "a"))) (.unary "not" (.var "b"))) (.num "1"))))
      (.loop (.var "x") .nop)) :=
    parse_eq_ok_iff.mpr ⟨by decide +kernel, by decide +kernel⟩
  exact ⟨_, hparse, parse_derives_program ⟨powersAndLoop.dropLast, _, rfl, rfl, by decide⟩ hparse⟩

end Mlog
