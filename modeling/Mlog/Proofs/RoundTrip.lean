import Mlog.Compile
import Mlog.Proofs.Lexing
import Mlog.Proofs.Soundness

/-! # Printed programs are read back

    The text of a printable program parses to that program, if the program is
    not nested too deeply; if it is, that is the only fault that is found.

    * `Parses n need ts p a F`: before the tokens `ts` and any token that `F`
      allows to follow, the parser `p`, which has `n` levels below it, reads
      `ts` and gives `a` if the `need` is no more than `n`; else the parse is
      given up.
    * `ReadBack e`: the tokens of the tree `e` are read back at each place
      where `e` can be printed.  It is proved by induction on the tree, for
      all heights of the tower of levels at once. -/

namespace Mlog

/-! ## Section 1: Contracts -/

/-- A parse without comments that has found no fault. -/
structure ParseState.Fresh (s : ParseState) : Prop where
  comments : s.comments = []
  faults : s.faults = []
  going : s.aborted = false

/-- A parse that was given up, and in which nothing else is wrong. -/
def ParseState.TooDeep (s : ParseState) : Prop :=
  s.aborted = true ∧ ∃ span, s.faults = [⟨.tooDeep, span⟩]

/-- What a parser makes of given tokens; see the head of the module. -/
def Parses {α : Type} (n need : Nat) (ts : List Token) (p : Parse α) (a : α)
    (F : Token → Prop) : Prop :=
  ∀ s next more, s.Fresh → F next → s.tokens = ts ++ next :: more →
    (need ≤ n ∧ (p s).1 = a ∧ (p s).2.Fresh ∧ (p s).2.tokens = next :: more) ∨
      (n < need ∧ (p s).2.TooDeep)

theorem ParseState.Fresh.advance {s : ParseState} (h : s.Fresh) : s.advance.Fresh :=
  ⟨by simp [h.comments], by simp [h.faults], by simp [h.going]⟩

/-- Once the parse has been given up, nothing changes that. -/
theorem ParseState.TooDeep.keeps {α : Type} {p : Parse α} [hp : Keeps p] {s : ParseState}
    (h : s.TooDeep) : (p s).2.TooDeep := by
  obtain ⟨haborted, span, hfaults⟩ := h
  obtain ⟨haborted', hfaults'⟩ := hp.keeps (sticky_aborted _) ⟨haborted, hfaults⟩
  exact ⟨haborted', span, hfaults'⟩

theorem ParseState.current_of_tokens {s : ParseState} {t : Token} {ts : List Token}
    (h : s.tokens = t :: ts) : s.current.value = t :=
  (List.cons.inj h).1

namespace Parses

variable {α β : Type} {n k m : Nat} {ts us : List Token} {t token : Token} {p : Parse α} {a : α}
  {b : β} {F G : Token → Prop}

theorem of_eq (h : Parses n k ts p a F) (hk : k = m) (hts : ts = us) : Parses n m us p a F := by
  rwa [← hk, ← hts]

/-- Fewer tokens may follow. -/
theorem before (h : Parses n k ts p a F) (hG : ∀ t, G t → F t) : Parses n k ts p a G :=
  fun s next more hfresh hnext => h s next more hfresh (hG next hnext)

theorem pure (a : α) : Parses n 0 [] (pure a : Parse α) a F :=
  fun _ _ _ hfresh _ htokens => .inl ⟨Nat.zero_le n, rfl, hfresh, htokens⟩

theorem exists_headD (us : List Token) (next : Token) (more : List Token) :
    ∃ rest, us ++ next :: more = us.headD next :: rest := by
  cases us with
  | nil => exact ⟨more, rfl⟩
  | cons u us => exact ⟨us ++ next :: more, rfl⟩

/-- One parser after another. -/
theorem bind {f : α → Parse β} [∀ a, Keeps (f a)] (hp : Parses n k ts p a G)
    (hG : ∀ next, F next → G (us.headD next)) (hf : Parses n m us (f a) b F) :
    Parses n (max k m) (ts ++ us) (p >>= f) b F := by
  intro s next more hfresh hnext htokens
  have hbind : (p >>= f) s = f (p s).1 (p s).2 := rfl
  obtain ⟨rest, hrest⟩ := exists_headD us next more
  rw [List.append_assoc, hrest] at htokens
  rw [hbind]
  rcases hp s _ _ hfresh (hG next hnext) htokens with ⟨hk, hvalue, hfresh', htokens'⟩ | ⟨hk, hdeep⟩
  · rw [hvalue]
    rw [← hrest] at htokens'
    rcases hf _ next more hfresh' hnext htokens' with ⟨hm, hresult⟩ | ⟨hm, hdeep⟩
    · exact .inl ⟨by omega, hresult⟩
    · exact .inr ⟨by omega, hdeep⟩
  · exact .inr ⟨by omega, hdeep.keeps⟩

/-- A parser, and then one that needs no levels. -/
theorem andThen {f : α → Parse β} [∀ a, Keeps (f a)] (hp : Parses n k ts p a G)
    (hG : ∀ next, F next → G (us.headD next)) (hf : Parses n 0 us (f a) b F) :
    Parses n k (ts ++ us) (p >>= f) b F :=
  (hp.bind hG hf).of_eq (Nat.max_zero k) rfl

/-- A parser, and then one that reads nothing. -/
theorem last {f : α → Parse β} [∀ a, Keeps (f a)] (hp : Parses n k ts p a F)
    (hf : Parses n 0 [] (f a) b F) : Parses n k ts (p >>= f) b F :=
  (hp.andThen (fun _ hnext => hnext) hf).of_eq rfl (List.append_nil ts)

/-! ## Section 2: Steps -/

/-- Looking at a token that is given, and then going on. -/
theorem peek {f : Token → Parse β} (h : Parses n k (t :: ts) (f t) b F) :
    Parses n k (t :: ts) (Parse.peek >>= f) b F := by
  intro s next more hfresh hnext htokens
  have hbind : (Parse.peek >>= f) s = f s.current.value s := rfl
  rw [hbind, ParseState.current_of_tokens htokens]
  exact h s next more hfresh hnext htokens

/-- Looking at the token that follows, and then going on. -/
theorem peekNext {f : Token → Parse β} (h : ∀ t, F t → Parses n k [] (f t) b F) :
    Parses n k [] (Parse.peek >>= f) b F := by
  intro s next more hfresh hnext htokens
  have hbind : (Parse.peek >>= f) s = f s.current.value s := rfl
  rw [hbind, ParseState.current_of_tokens htokens]
  exact h next hnext s next more hfresh hnext htokens

theorem here {f : Span → Parse β} (h : ∀ span, Parses n k ts (f span) b F) :
    Parses n k ts (Parse.here >>= f) b F :=
  fun s => h s.current.span s

theorem advance {f : Unit → Parse β} (h : Parses n k ts (f ()) b F) :
    Parses n k (t :: ts) (Parse.advance >>= f) b F := by
  intro s next more hfresh hnext htokens
  obtain ⟨u, us, hus⟩ : ∃ u us, ts ++ next :: more = u :: us :=
    List.exists_cons_of_ne_nil (by simp)
  rw [List.cons_append, hus] at htokens
  exact h s.advance next more hfresh.advance hnext
    ((ParseState.tokens_advance htokens).trans hus.symm)

/-- Moving past a token that is given. -/
theorem eat {f : Bool → Parse β} (h : Parses n k ts (f true) b F) :
    Parses n k (token :: ts) (Parse.eat token >>= f) b F := by
  intro s next more hfresh hnext htokens
  rw [Parse.eat_bind, if_pos (ParseState.current_of_tokens htokens)]
  exact advance (f := fun _ => f true) h s next more hfresh hnext htokens

/-- Staying where another token is given, or follows. -/
theorem eatOther {f : Bool → Parse β} (hne : ∀ next, F next → ts.headD next ≠ token)
    (h : Parses n k ts (f false) b F) : Parses n k ts (Parse.eat token >>= f) b F := by
  intro s next more hfresh hnext htokens
  have hcurrent : s.current.value = ts.headD next := by
    cases ts <;> exact ParseState.current_of_tokens htokens
  rw [Parse.eat_bind, if_neg (by rw [hcurrent]; exact hne next hnext)]
  exact h s next more hfresh hnext htokens

theorem expect {f : Unit → Parse β} (h : Parses n k ts (f ()) b F) :
    Parses n k (token :: ts) (Parse.expect token >>= f) b F := by
  have hexpect : Parse.expect token >>= f = Parse.eat token >>= fun found =>
      (if found = true then Pure.pure () else do
        let found ← Parse.peek
        Parse.report (.expected token found)) >>= f := rfl
  rw [hexpect]
  exact eat h

theorem expectName {name : String} {f : String → Parse β} (h : Parses n k ts (f name) b F) :
    Parses n k (.ident name :: ts) (Parse.expectName >>= f) b F := by
  intro s next more hfresh hnext htokens
  have hname : Parse.expectName s = (name, s.advance) := by
    have hcurrent := ParseState.current_of_tokens htokens
    obtain ⟨⟨value, span⟩, ahead, comments, faults, aborted⟩ := s
    obtain rfl : value = .ident name := hcurrent
    rfl
  have hbind : (Parse.expectName >>= f) s = f (Parse.expectName s).1 (Parse.expectName s).2 := rfl
  rw [hbind, hname]
  exact advance (f := fun _ => f name) h s next more hfresh hnext htokens

theorem skipComments {f : Unit → Parse β} (h : Parses n k ts (f ()) b F) :
    Parses n k ts (Parse.skipComments >>= f) b F := by
  intro s next more hfresh hnext htokens
  have hbind : (Parse.skipComments >>= f) s = f () s.skipComments := rfl
  rw [hbind, ParseState.skipComments_of_nil hfresh.comments]
  exact h s next more hfresh hnext htokens

theorem takeComments {f : List Comment → Parse β} (h : Parses n k ts (f []) b F) :
    Parses n k ts (Parse.takeComments >>= f) b F := by
  intro s next more hfresh hnext htokens
  have hbind : (Parse.takeComments >>= f) s = f s.passedComments s.skipComments := rfl
  have hpassed : s.passedComments = [] := by simp [ParseState.passedComments, hfresh.comments]
  rw [hbind, hpassed, ParseState.skipComments_of_nil hfresh.comments]
  exact h s next more hfresh hnext htokens

/-! ## Section 3: Rounds and levels -/

/-- A repetition ends where no round can be made. -/
theorem iterateDone {step : α → Parse (Option α)} (h : Parses n 0 [] (step a) none F) :
    Parses n 0 [] (Parse.iterate step a) a F := by
  intro s next more hfresh hnext htokens
  rcases h s next more hfresh hnext htokens with ⟨hn, hnone, hresult⟩ | ⟨hn, _⟩
  · have hiterate : Parse.iterate step a s = (a, (step a s).2) := by
      rw [Parse.iterate]
      cases hround : step a s with
      | mk next s' =>
        obtain rfl : next = none := by simpa [hround] using hnone
        rfl
    rw [hiterate]
    exact .inl ⟨hn, rfl, hresult⟩
  · exact absurd hn (Nat.not_lt_zero n)

/-- A round that reads something, and then the other rounds. -/
theorem iterateRound {step : α → Parse (Option α)} [hkeeps : ∀ a, Keeps (step a)] {b c : α}
    (hround : Parses n k ts (step a) (some b) G) (hts : ts ≠ [])
    (hG : ∀ next, F next → G (us.headD next)) (h : Parses n m us (Parse.iterate step b) c F) :
    Parses n (max k m) (ts ++ us) (Parse.iterate step a) c F := by
  intro s next more hfresh hnext htokens
  obtain ⟨rest, hrest⟩ := exists_headD us next more
  rw [List.append_assoc, hrest] at htokens
  rcases hround s _ _ hfresh (hG next hnext) htokens with ⟨hk, hb, hfresh', htokens'⟩ | ⟨hk, hdeep⟩
  -- the round has read something, so it is not the last one
  · have hmoved : (step a s).2.ahead.length < s.ahead.length :=
      ParseState.length_ahead_lt hts (by rw [htokens, htokens'])
    have hiterate : Parse.iterate step a s = Parse.iterate step b (step a s).2 := by
      rw [Parse.iterate]
      cases hstep : step a s with
      | mk value s' =>
        rw [hstep] at hb hmoved
        obtain rfl : value = some b := hb
        exact if_pos hmoved
    rw [← hrest] at htokens'
    rw [hiterate]
    rcases h _ next more hfresh' hnext htokens' with ⟨hm, hresult⟩ | ⟨hm, hdeep⟩
    · exact .inl ⟨by omega, hresult⟩
    · exact .inr ⟨by omega, hdeep⟩
  -- nesting that is too deep stays so, whatever the rounds after it do
  · refine .inr ⟨by omega, ?_⟩
    rw [Parse.iterate]
    cases hstep : step a s with
    | mk value s' =>
      rw [hstep] at hdeep
      cases value with
      | none => exact hdeep
      | some b =>
        dsimp only
        split
        · exact hdeep.keeps
        · exact hdeep

/-- The parsers at the bottom of the tower give the parse up. -/
theorem giveUp (x : α) : Parses 0 (k + 1) ts (Grammar.giveUp x) a F := by
  intro s next more hfresh _ _
  refine .inr ⟨Nat.succ_pos k, rfl, s.current.span, ?_⟩
  have hfaults : (Grammar.giveUp x s).2.faults = (s.report .tooDeep s.current.span).faults := rfl
  rw [hfaults, ParseState.faults_report_of_going hfresh.going, hfresh.faults]

/-- A parser of a level is what the level says of the one below, so that one
    level more is needed. -/
theorem level {r q : Inner → Parse α} {x : α} (hbottom : r (Grammar.level 0) = Grammar.giveUp x)
    (hstep : ∀ n, r (Grammar.level (n + 1)) = q (Grammar.level n))
    (h : ∀ n, Parses n k ts (q (Grammar.level n)) a F) (n : Nat) :
    Parses n (1 + k) ts (r (Grammar.level n)) a F := by
  rw [Nat.add_comm]
  cases n with
  | zero =>
    rw [hbottom]
    exact giveUp x
  | succ n =>
    rw [hstep]
    intro s next more hfresh hnext htokens
    rcases h n s next more hfresh hnext htokens with ⟨hk, hresult⟩ | ⟨hk, hdeep⟩
    · exact .inl ⟨Nat.succ_le_succ hk, hresult⟩
    · exact .inr ⟨Nat.succ_lt_succ hk, hdeep⟩

end Parses

/-! ## Section 4: What may follow -/

/-- The token does not go on with an operand before it. -/
def EndsOperand (t : Token) : Prop :=
  t ∉ [.symbol .lparen, .symbol .lbracket, .symbol .dot, .keyword .else_]

/-- The token goes on with neither an operand nor an operation. -/
def EndsOperation (t : Token) : Prop := EndsOperand t ∧ t.binaryOperator? = none

/-- The tokens that stand after values in printed programs. -/
def Closes (t : Token) : Prop :=
  t ∈ [.symbol .rparen, .symbol .rbracket, .symbol .comma, .symbol .lbrace, .symbol .rbrace,
    .symbol .semicolon, .eof]

theorem Closes.endsOperation {t : Token} (h : Closes t) :
    EndsOperation t ∧ t ≠ .symbol .assign := by
  have hall : ∀ t ∈ [Token.symbol .rparen, .symbol .rbracket, .symbol .comma, .symbol .lbrace,
      .symbol .rbrace, .symbol .semicolon, .eof],
      (t ∉ [Token.symbol .lparen, .symbol .lbracket, .symbol .dot, .keyword .else_] ∧
        t.binaryOperator? = none) ∧ t ≠ .symbol .assign := by
    decide
  exact hall t h

/-- The token of a binary operator ends an operand, and is that operator. -/
theorem operationToken?_spec {op : String} {t : Token} (h : operationToken? op = some t) :
    EndsOperand t ∧ ∃ binding, t.binaryOperator? = some (op, binding) := by
  have hall : ∀ operator ∈ binaryOperators,
      operator.1 ∉ [Token.symbol .lparen, .symbol .lbracket, .symbol .dot, .keyword .else_] ∧
        operator.1.binaryOperator?.map Prod.fst = some operator.2 := by
    decide
  obtain ⟨operator, hfind, rfl⟩ := Option.map_eq_some_iff.mp h
  obtain rfl : operator.2 = op := by simpa using List.find?_some hfind
  obtain ⟨hends, hname⟩ := hall operator (List.mem_of_find?_eq_some hfind)
  obtain ⟨⟨name, binding⟩, hoperator, rfl⟩ := Option.map_eq_some_iff.mp hname
  exact ⟨hends, binding, hoperator⟩

/-! ## Section 5: Chains of assignments -/

namespace Grammar

/-- What is left to do once an expression of a chain has been read. -/
def finish (inner : Inner) (chain : Chain) : Parse Expr := do
  let chain ← Parse.iterate (nextAssignment inner) chain
  chain.targets.foldlM (fun value target => assign target.1 target.2 value) chain.last

/-- A chain of assignments of which some targets have been read. -/
def chainFrom (inner : Inner) (targets : List (Expr × Span)) : Parse Expr := do
  let start ← Parse.here
  let e ← binary inner 0
  finish inner ⟨targets, start, e⟩

theorem assignment_eq_chainFrom (inner : Inner) : assignment inner = chainFrom inner [] := rfl

/-- The value is assigned to all targets, the latest one first. -/
def assignAll? (targets : List (Expr × Span)) (value : Expr) : Option Expr :=
  targets.foldlM (fun value target => target.1.assignTo? value) value

theorem assign_of_assignTo? {target value e : Expr} (h : target.assignTo? value = some e)
    (span : Span) : assign target span value = pure e := by
  cases target with
  | var | builtin | load | sensor =>
    obtain rfl := Option.some.inj h
    rfl
  | _ => exact absurd h (by simp [Expr.assignTo?])

variable {inner : Inner} {n k m : Nat} {ts us : List Token} {e a : Expr} {F : Token → Prop}

theorem parses_assignAll {targets : List (Expr × Span)} (h : assignAll? targets e = some a) :
    Parses n 0 [] (targets.foldlM (fun value target => assign target.1 target.2 value) e) a F := by
  induction targets generalizing e with
  | nil =>
    obtain rfl := Option.some.inj h
    exact .pure e
  | cons target targets ih =>
    rw [assignAll?, List.foldlM_cons] at h
    obtain ⟨next, hnext, hothers⟩ := Option.bind_eq_some_iff.mp h
    rw [List.foldlM_cons, assign_of_assignTo? hnext]
    exact ih hothers

instance keeps_finish [KeepsInner inner] (chain : Chain) : Keeps (finish inner chain) := by
  unfold finish
  infer_instance

/-- A chain ends where no sign follows. -/
theorem parses_finish [KeepsInner inner] {chain : Chain}
    (h : assignAll? chain.targets chain.last = some a) :
    Parses n 0 [] (finish inner chain) a Closes := by
  refine .last (.iterateDone (.peekNext fun t ht => ?_)) (parses_assignAll h)
  rw [if_neg ht.endsOperation.2]
  exact .pure none

/-- At the sign of an assignment, a chain with one target more is read. -/
theorem finish_of_assign (inner : Inner) [KeepsInner inner] {s : ParseState} {u : Token}
    {us : List Token}
    (h : s.tokens = .symbol .assign :: u :: us) (chain : Chain) :
    ∃ span, finish inner chain s =
      chainFrom inner ((chain.last, span) :: chain.targets) s.advance := by
  let q := link inner ((chain.last, chain.start.merge s.current.span) :: chain.targets)
  -- with the sign before it, a round takes one link of the chain
  have hround : nextAssignment inner chain s = (some (q s.advance).1, (q s.advance).2) := by
    have hnext : nextAssignment inner chain s = (if s.current.value = .symbol .assign then (do
          let span := chain.start.merge (← Parse.here)
          Parse.advance
          return some (← link inner ((chain.last, span) :: chain.targets)) : Parse (Option Chain))
        else return none) s := rfl
    rw [hnext, if_pos (ParseState.current_of_tokens h)]
    rfl
  have hpassed : s.tokens = [.symbol .assign] ++ s.advance.tokens := by
    rw [h, ParseState.tokens_advance h]
    rfl
  have hadvance := ParseState.length_ahead_lt (by simp) hpassed
  -- the link may read no token, but the sign has been passed
  have hmoved : (q s.advance).2.ahead.length < s.ahead.length :=
    Nat.lt_of_le_of_lt ((keeps_link _).keeps (sticky_ahead s.advance.ahead.length) (Nat.le_refl _))
      hadvance
  have hiterate : Parse.iterate (nextAssignment inner) chain s =
      Parse.iterate (nextAssignment inner) (q s.advance).1 (q s.advance).2 := by
    rw [Parse.iterate, hround]
    exact if_pos hmoved
  have hfinish : ∀ chain s, finish inner chain s =
      (Parse.iterate (nextAssignment inner) chain s).1.targets.foldlM
        (fun value target => assign target.1 target.2 value)
        (Parse.iterate (nextAssignment inner) chain s).1.last
        (Parse.iterate (nextAssignment inner) chain s).2 := fun _ _ => rfl
  refine ⟨chain.start.merge s.current.span, ?_⟩
  rw [hfinish, hiterate, ← hfinish]
  rfl

/-- A chain goes on after a sign. -/
theorem parses_finish_assign [KeepsInner inner] {chain : Chain}
    (h : ∀ span, Parses n k ts (chainFrom inner ((chain.last, span) :: chain.targets)) a F) :
    Parses n k (.symbol .assign :: ts) (finish inner chain) a F := by
  intro s next more hfresh hnext htokens
  obtain ⟨u, us, hus⟩ : ∃ u us, ts ++ next :: more = u :: us :=
    List.exists_cons_of_ne_nil (by simp)
  rw [List.cons_append, hus] at htokens
  obtain ⟨span, hfinish⟩ := finish_of_assign inner htokens chain
  rw [hfinish]
  exact h span s.advance next more hfresh.advance hnext
    ((ParseState.tokens_advance htokens).trans hus.symm)

/-! ## Section 6: Operands -/

theorem parses_unary {t : Token} (hminus : t ≠ .symbol .minus) (hnot : t ≠ .keyword .not_)
    (hbang : t ≠ .symbol .bang) (h : Parses n k (t :: ts) (primary inner) e F) :
    Parses n k (t :: ts) (unary inner) e F := by
  refine .peek ?_
  rw [if_neg hminus]
  refine .peek ?_
  split
  · exact absurd rfl hnot
  · exact absurd rfl hbang
  · exact h

theorem parses_binary [KeepsInner inner] (h : Parses n k ts (unary inner) e EndsOperand)
    (power : Nat) : Parses n k ts (binary inner power) e EndsOperation := by
  refine .last (h.before fun t ht => ht.1) (.iterateDone (.peekNext fun t ht => ?_))
  rw [ht.2]
  exact .pure none

/-- An operand alone is a chain. -/
theorem parses_chainFrom [KeepsInner inner] {targets : List (Expr × Span)}
    (h : Parses n k ts (binary inner 0) e EndsOperation) (ha : assignAll? targets e = some a) :
    Parses n k ts (chainFrom inner targets) a Closes :=
  .here fun _ => .last (h.before fun _ ht => ht.endsOperation.1) (parses_finish ha)

/-! ## Section 7: Places -/

/-- The tree is read back where an operand is asked for. -/
def ReadsOperand (e : Expr) : Prop :=
  ∀ n, Parses n e.nesting e.tokens (unary (level n)) e EndsOperand

/-- The tree is read back where a value is asked for, also as the end of a
    chain of assignments. -/
def ReadsValue (e : Expr) : Prop :=
  ∀ n targets a, assignAll? targets e = some a →
    Parses n e.nesting e.tokens (chainFrom (level n) targets) a Closes

/-- The tree is read back as a statement. -/
def ReadsStatement (e : Expr) : Prop :=
  ∀ n, Parses n e.depth e.tokens (bareStatement (level n)) e Closes

/-- The statements of the tree are read back, both as the last ones of a block
    and before others. -/
def ReadsBlock (e : Expr) : Prop :=
  ∀ n closing, closing = .symbol .rbrace ∨ closing = .eof → ∀ before,
    Parses n e.depth e.tokens (Parse.iterate (nextStatement (level n) closing) before)
        (e.statements.reverse ++ before) (· = closing) ∧
      ∀ {k us after}, Parses n k us
          (Parse.iterate (nextStatement (level n) closing) (e.statements.reverse ++ before))
          after (· = closing) →
        Parses n (max e.depth k) (e.tokens ++ .symbol .semicolon :: us)
          (Parse.iterate (nextStatement (level n) closing) before) after (· = closing)

theorem ReadsOperand.value (h : ReadsOperand e) : ReadsValue e :=
  fun n _ _ ha => parses_chainFrom (parses_binary (h n) 0) ha

theorem ReadsOperand.negated (h : ReadsOperand e) (n : Nat) :
    Parses n (1 + e.nesting) e.tokens (level n).negated e EndsOperand :=
  .level (r := Inner.negated) (q := unary) rfl (fun _ => rfl) h n

theorem ReadsOperand.rightOperand (h : ReadsOperand e) (power n : Nat) :
    Parses n (1 + e.nesting) e.tokens ((level n).rightOperand power) e EndsOperation :=
  .level (r := fun inner => inner.rightOperand power) (q := fun inner => binary inner power) rfl
    (fun _ => rfl) (fun n => parses_binary (h n) power) n

/-- An expression is a chain of assignments of which no target has been read. -/
theorem parses_expr (h : ∀ n, Parses n k ts (chainFrom (level n) []) e Closes) (n : Nat) :
    Parses n (1 + k) ts (level n).expr e Closes :=
  .level (r := Inner.expr) (q := fun inner => chainFrom inner []) rfl
    (fun n => assignment_eq_chainFrom (level n)) h n

theorem ReadsValue.expr (h : ReadsValue e) (n : Nat) :
    Parses n (1 + e.nesting) e.tokens (level n).expr e Closes :=
  parses_expr (fun n => h n [] e rfl) n

/-- A value is read back as the assignment of it to a target. -/
theorem ReadsValue.assigned {target value : Expr} {k : Nat} {us : List Token}
    (h : ReadsValue value) (htarget : ∀ n, Parses n k us (unary (level n)) target EndsOperand)
    (hassign : target.assignTo? value = some e)
    (htokens : us ++ .symbol .assign :: value.tokens = e.tokens)
    (hnesting : max k value.nesting = e.nesting) : ReadsValue e := by
  intro n targets a ha
  have hsign : EndsOperation (.symbol .assign) := ⟨by simp [EndsOperand], rfl⟩
  have hall : ∀ span, assignAll? ((target, span) :: targets) value = some a := by
    intro span
    rw [assignAll?, List.foldlM_cons]
    exact Option.bind_eq_some_iff.mpr ⟨e, hassign, ha⟩
  refine Parses.of_eq ?_ hnesting htokens
  exact .here fun start => .bind (parses_binary (htarget n) 0) (fun _ _ => hsign)
    (parses_finish_assign fun span => h n _ a (hall span))

/-! ## Section 8: Blocks -/

theorem statements_ne_nil (e : Expr) : e.statements ≠ [] := by
  cases e <;> simp [Expr.statements]

/-- A tree is folded from its statements. -/
theorem ofStatements_statements (e : Expr) : Expr.ofStatements e.statements = e := by
  induction e with
  | seq rest last ih _ =>
    rw [Expr.statements, Expr.ofStatements_concat (statements_ne_nil rest), ih]
  | _ => rfl

theorem ReadsBlock.statements (h : ReadsBlock e) {closing : Token}
    (hclosing : closing = .symbol .rbrace ∨ closing = .eof) (n : Nat) :
    Parses n e.depth e.tokens (statements (level n) closing) e.statements (· = closing) := by
  have hreverse : (e.statements.reverse ++ []).reverse = e.statements := by simp
  have hlast := (h n closing hclosing []).1.last (f := fun stmts => pure stmts.reverse) (.pure _)
  rwa [hreverse] at hlast

theorem ReadsBlock.block (h : ReadsBlock e) (n : Nat) :
    Parses n (1 + e.depth) (Expr.bracedTokens e.tokens) (block (level n)) e F := by
  have hinner : Parses n (1 + e.depth) e.tokens (level n).statements e.statements
      (· = .symbol .rbrace) :=
    .level (r := Inner.statements) (q := fun inner => Grammar.statements inner (.symbol .rbrace))
      rfl (fun _ => rfl) (h.statements (.inl rfl)) n
  have hblock : Parses n (1 + e.depth) (Expr.bracedTokens e.tokens) (Grammar.block (level n))
      (Expr.ofStatements e.statements) F :=
    .expect (hinner.andThen (fun _ _ => rfl) (.expect (.pure _)))
  rwa [ofStatements_statements] at hblock

/-! ## Section 9: Trees -/

theorem readsOperand_null : ReadsOperand .null := fun _ =>
  parses_unary (by simp) (by simp) (by simp) (.peek (.advance (.pure _)))

theorem readsOperand_bool (value : Bool) : ReadsOperand (.bool value) := by
  intro n
  cases value with
  | true => exact parses_unary (by simp) (by simp) (by simp) (.peek (.advance (.pure _)))
  | false => exact parses_unary (by simp) (by simp) (by simp) (.peek (.advance (.pure _)))

theorem readsOperand_num {literal : String} (h : Text.isNumber literal = true) :
    ReadsOperand (.num literal) := by
  intro n
  rw [Expr.tokens]
  rcases Expr.numberTokens_cases h with ⟨cs, rfl, _, htokens⟩ | ⟨_, htokens⟩
  · rw [htokens]
    exact .peek (.here fun _ => .advance (.peek (.advance (.pure _))))
  · rw [htokens]
    exact parses_unary (by simp) (by simp) (by simp) (.peek (.advance (.pure _)))

theorem readsOperand_str (contents : String) : ReadsOperand (.str contents) := fun _ =>
  parses_unary (by simp) (by simp) (by simp) (.peek (.advance (.pure _)))

/-- A name with what can follow it. -/
theorem parses_name {name : String} (h : Parses n k ts (suffix inner name) e F) :
    Parses n k (.ident name :: ts) (unary inner) e F :=
  parses_unary (by simp) (by simp) (by simp) (.peek (.advance h))

theorem readsOperand_var (name : String) : ReadsOperand (.var name) := by
  refine fun n => parses_name (.peekNext fun t ht => ?_)
  split
  · exact absurd ht (by simp [EndsOperand])
  · exact absurd ht (by simp [EndsOperand])
  · exact absurd ht (by simp [EndsOperand])
  · exact .pure _

theorem readsOperand_builtin (name : String) : ReadsOperand (.builtin name) := by
  refine fun n => parses_unary (by simp) (by simp) (by simp) (.peek (.advance (.expectName ?_)))
  refine .eatOther (fun next hnext => ?_) (.pure _)
  rintro rfl
  exact absurd hnext (by simp [EndsOperand])

theorem parses_cell {cell : String} {address : Expr} (h : ReadsValue address) (n : Nat) :
    Parses n (1 + address.nesting) (.ident cell :: .symbol .lbracket :: address.tokens ++
      [.symbol .rbracket]) (unary (level n)) (.load cell address) F :=
  parses_name (.peek (.advance ((h.expr n).andThen (fun _ _ => by simp [Closes])
    (.expect (.pure _)))))

/-- A property, with its sign or without. -/
theorem parses_property {name : String}
    (hts : ts = [.symbol .atSign, .ident name] ∨ ts = [.ident name]) :
    Parses n 0 ts property ("@" ++ name) F := by
  have hproperty : property = Parse.eat (.symbol .atSign) >>= fun _ =>
      Parse.expectName >>= fun name => pure ("@" ++ name) := rfl
  rw [hproperty]
  rcases hts with rfl | rfl
  · exact .eat (.expectName (.pure _))
  · exact .eatOther (fun _ _ => by simp) (.expectName (.pure _))

theorem parses_sensor {target name : String} (htarget : isReference target = true)
    (h : Parses n 0 ts property name F) :
    Parses n 0 (Expr.referenceTokens target ++ .symbol .dot :: ts) (unary inner)
      (.sensor target name) F := by
  rcases Expr.referenceTokens_cases htarget with ⟨_, htokens⟩ | ⟨block, rfl, _, htokens⟩
  · rw [htokens]
    exact parses_name (.peek (.advance (h.last (.pure _))))
  · rw [htokens]
    exact parses_unary (by simp) (by simp) (by simp)
      (.peek (.advance (.expectName (.eat (h.last (.pure _))))))

theorem readsOperand_load {cell : String} {address : Expr} (h : ReadsValue address) :
    ReadsOperand (.load cell address) := by
  intro n
  rw [Expr.nesting, Expr.tokens]
  exact parses_cell h n

theorem readsOperand_sensor {target name : String} (htarget : isReference target = true)
    (hname : Text.isSigned name = true) : ReadsOperand (.sensor target name) := by
  obtain ⟨name, rfl, _⟩ := Text.isSigned_cases hname
  intro n
  rw [Expr.tokens, Expr.referenceTokens_signed]
  exact parses_sensor htarget (parses_property (.inl rfl))

theorem readsOperand_unary {op : String} {operand : Expr}
    (hop : (negationToken? op).isSome = true) (h : ReadsOperand operand) :
    ReadsOperand (.unary op operand) := by
  intro n
  rw [Expr.nesting, Expr.tokens]
  rcases negationToken?_cases hop with rfl | rfl
  · exact .peek (.peek (.advance ((h.negated n).last (.pure _))))
  · exact .peek (.peek (.advance ((h.negated n).last (.pure _))))

/-- Two operands with an operator between them. -/
theorem parses_operation {op : String} {t : Token} {left right : Expr}
    (hop : operationToken? op = some t) (hleft : ReadsOperand left) (hright : ReadsOperand right)
    (n : Nat) : Parses n (max left.nesting (1 + right.nesting)) (left.tokens ++ t :: right.tokens)
      (binary (level n) 0) (.binary op left right) EndsOperation := by
  obtain ⟨hends, binding, hoperator⟩ := operationToken?_spec hop
  refine .bind (hleft n) (fun _ _ => hends) ?_
  have hround : Parses n (1 + right.nesting) (t :: right.tokens)
      (nextOperation (level n) 0 left) (some (.binary op left right)) EndsOperation := by
    refine .peek ?_
    rw [hoperator]
    exact .advance ((hright.rightOperand binding.right n).last (.pure _))
  have hdone : Parses n 0 [] (Parse.iterate (nextOperation (level n) 0) (.binary op left right))
      (.binary op left right) EndsOperation := by
    refine .iterateDone (.peekNext fun t ht => ?_)
    rw [ht.2]
    exact .pure none
  exact (hround.iterateRound (by simp) (fun _ hnext => hnext) hdone).of_eq (Nat.max_zero _)
    (List.append_nil _)

theorem readsOperand_binary {op : String} {left right : Expr}
    (hop : (operationToken? op).isSome = true) (hleft : ReadsOperand left)
    (hright : ReadsOperand right) : ReadsOperand (.binary op left right) := by
  obtain ⟨t, ht⟩ := Option.isSome_iff_exists.mp hop
  intro n
  have hinner : Parses n (1 + max left.nesting (1 + right.nesting))
      (left.tokens ++ t :: right.tokens) (level n).expr (.binary op left right) Closes :=
    parses_expr (fun n => parses_chainFrom (parses_operation ht hleft hright n) rfl) n
  have htokens : (Expr.binary op left right).tokens =
      .symbol .lparen :: (left.tokens ++ t :: right.tokens ++ [.symbol .rparen]) := by
    simp [Expr.tokens, ht]
  rw [Expr.nesting, htokens]
  exact parses_unary (by simp) (by simp) (by simp) (.peek (.advance
    (hinner.andThen (fun _ _ => by simp [Closes]) (.expect (.pure _)))))

/-- The tokens of arguments after the first one. -/
def moreTokens (args : List Expr) : List Token :=
  args.flatMap fun arg => .symbol .comma :: arg.tokens

theorem argsTokens_cons (arg : Expr) (args : List Expr) :
    Expr.argsTokens (arg :: args) = arg.tokens ++ moreTokens args := by
  induction args generalizing arg with
  | nil => simp [Expr.argsTokens, moreTokens]
  | cons next args ih => simp [Expr.argsTokens, ih next, moreTokens]

theorem closes_headD_moreTokens (args : List Expr) (ts : List Token) (next : Token) :
    Closes ((moreTokens args ++ .symbol .rparen :: ts).headD next) := by
  cases args <;> simp [moreTokens, Closes]

theorem parses_moreArguments {args : List Expr} (hargs : ∀ arg ∈ args, ReadsValue arg) (n : Nat)
    (read : List Expr) :
    Parses n (Expr.argsNesting args) (moreTokens args)
      (Parse.iterate (nextArgument (level n)) read) (args.reverse ++ read)
      (· = .symbol .rparen) := by
  induction args generalizing read with
  | nil =>
    refine .iterateDone (.eatOther (fun next hnext => ?_) (.pure none))
    rintro rfl
    exact absurd hnext (by simp)
  | cons arg args ih =>
    have harg := hargs arg List.mem_cons_self
    have hround : Parses n (1 + arg.nesting) (.symbol .comma :: arg.tokens)
        (nextArgument (level n) read) (some (arg :: read)) Closes :=
      .eat ((harg.expr n).last (.pure _))
    have hothers := ih (fun arg h => hargs arg (List.mem_cons_of_mem _ h)) (arg :: read)
    have hfollow : ∀ next, next = .symbol .rparen → Closes ((moreTokens args).headD next) := by
      rintro next rfl
      cases args <;> simp [moreTokens, Closes]
    rw [List.reverse_cons, List.append_assoc]
    exact hround.iterateRound (by simp) hfollow hothers

theorem parses_arguments {args : List Expr} (hargs : ∀ arg ∈ args, ReadsValue arg)
    (hstart : ∀ arg ∈ args, ∃ t ts, arg.tokens = t :: ts ∧ t ≠ .symbol .rparen) (n : Nat) :
    Parses n (Expr.argsNesting args) (Expr.argsTokens args ++ [.symbol .rparen])
      (arguments (level n)) args F := by
  cases args with
  | nil => exact .eat (.pure [])
  | cons first args =>
    obtain ⟨t, ts, htokens, ht⟩ := hstart first List.mem_cons_self
    have hmore := parses_moreArguments (fun arg h => hargs arg (List.mem_cons_of_mem _ h)) n [first]
    have hfirst := (hargs first List.mem_cons_self).expr n
    have hreverse : (args.reverse ++ [first]).reverse = first :: args := by simp
    rw [argsTokens_cons, List.append_assoc]
    refine .eatOther (fun _ _ => by simpa [htokens] using ht) ?_
    refine hfirst.bind (fun next _ => closes_headD_moreTokens args [] next) ?_
    refine hmore.andThen (fun _ _ => rfl) (.expect ?_)
    rw [hreverse]
    exact .pure _

theorem readsOperand_call {name : String} {args : List Expr} (hargs : ∀ arg ∈ args, ReadsValue arg)
    (hstart : ∀ arg ∈ args, ∃ t ts, arg.tokens = t :: ts ∧ t ≠ .symbol .rparen) :
    ReadsOperand (.call name args) := by
  intro n
  rw [Expr.nesting, Expr.tokens]
  exact parses_name (.peek (.advance ((parses_arguments hargs hstart n).last (.pure _))))

/-- The else part of an `if`.  It needs a level only if there is one. -/
theorem parses_elseBranch {no : Expr} (h : no = .nop ∨ ReadsBlock no) (cond yes : Expr) (n : Nat) :
    ∃ m, max 1 m = 1 + no.depth ∧ Parses n m (Expr.elseTokens no no.tokens) (do
      if ← Parse.eat (.keyword .else_) then
        if (← Parse.peek) = .keyword .if_ then
          return .branch cond yes (← (level n).elseIf)
        else
          return .branch cond yes (← block (level n))
      else
        return .branch cond yes .nop : Parse Expr) (.branch cond yes no) EndsOperand := by
  by_cases hnop : no = .nop
  · subst hnop
    refine ⟨0, rfl, .eatOther (fun next hnext => ?_) (.pure _)⟩
    rintro rfl
    exact absurd hnext (by simp [EndsOperand])
  · have htokens : Expr.elseTokens no no.tokens =
        .keyword .else_ :: Expr.bracedTokens no.tokens := by
      simp [Expr.elseTokens]
    refine ⟨1 + no.depth, by omega, ?_⟩
    rw [htokens]
    exact .eat (.peek (((h.resolve_left hnop).block n).last (.pure _)))

theorem readsOperand_branch {cond yes no : Expr} (hcond : ReadsValue cond) (hyes : ReadsBlock yes)
    (hno : no = .nop ∨ ReadsBlock no) : ReadsOperand (.branch cond yes no) := by
  intro n
  obtain ⟨m, hm, htail⟩ := parses_elseBranch hno cond yes n
  have hread : Parses n _ (.keyword .if_ :: _) (branch (level n)) (.branch cond yes no)
      EndsOperand :=
    .expect ((hcond.expr n).bind (fun _ _ => by simp [Closes, Expr.bracedTokens])
      ((hyes.block n).bind (G := fun _ => True) (fun _ _ => trivial) htail))
  have hnesting : (Expr.branch cond yes no).nesting =
      1 + max cond.nesting (max yes.depth no.depth) := rfl
  have htokens : (Expr.branch cond yes no).tokens = .keyword .if_ :: (cond.tokens ++
      (Expr.bracedTokens yes.tokens ++ Expr.elseTokens no no.tokens)) := by
    simp [Expr.tokens]
  rw [htokens]
  exact parses_unary (by simp) (by simp) (by simp) (.peek (hread.of_eq (by omega) rfl))

theorem parses_otherwise {other : Expr} (h : other = .nop ∨ ReadsBlock other) (n : Nat) :
    ∃ m, max 1 m = 1 + other.depth ∧ Parses n m (Expr.elseTokens other other.tokens)
      (otherwise (level n)) other (· = .symbol .rbrace) := by
  by_cases hnop : other = .nop
  · subst hnop
    refine ⟨0, rfl, .eatOther (fun next hnext => ?_) (.pure _)⟩
    rintro rfl
    exact absurd hnext (by simp)
  · have htokens : Expr.elseTokens other other.tokens =
        .keyword .else_ :: Expr.bracedTokens other.tokens := by
      simp [Expr.elseTokens]
    refine ⟨1 + other.depth, by omega, ?_⟩
    rw [htokens]
    exact .eat ((h.resolve_left hnop).block n)

/-- The arms of a `case`, up to its else part or its end. -/
theorem parses_arms {arms : List (Expr × Expr)}
    (harms : ∀ arm ∈ arms, ReadsValue arm.1 ∧ ReadsBlock arm.2) (n : Nat)
    (read : List (Expr × Expr)) :
    Parses n (Expr.armsNesting arms) (Expr.armsTokens arms)
      (Parse.iterate (nextArm (level n)) read) (arms.reverse ++ read)
      (· ≠ .keyword .when_) := by
  induction arms generalizing read with
  | nil => exact .iterateDone (.skipComments (.eatOther (fun _ hnext => hnext) (.pure none)))
  | cons arm arms ih =>
    obtain ⟨pattern, body⟩ := arm
    obtain ⟨hpattern, hbody⟩ := harms _ List.mem_cons_self
    -- one round reads `when`, a pattern and a block
    have hround : Parses n (max (1 + pattern.nesting) (1 + body.depth))
        (.keyword .when_ :: (pattern.tokens ++ Expr.bracedTokens body.tokens))
        (nextArm (level n) read) (some ((pattern, body) :: read)) (fun _ => True) :=
      .skipComments (.eat ((hpattern.expr n).bind (fun _ _ => by simp [Closes, Expr.bracedTokens])
        ((hbody.block n).last (.pure _))))
    have hothers := ih (fun arm h => harms arm (List.mem_cons_of_mem _ h)) ((pattern, body) :: read)
    have hnesting : Expr.armsNesting ((pattern, body) :: arms) =
        max (1 + max pattern.nesting body.depth) (Expr.armsNesting arms) := rfl
    have htokens : Expr.armsTokens ((pattern, body) :: arms) =
        .keyword .when_ :: (pattern.tokens ++ Expr.bracedTokens body.tokens) ++
          Expr.armsTokens arms := by
      simp [Expr.armsTokens]
    rw [htokens, List.reverse_cons, List.append_assoc]
    exact (hround.iterateRound (by simp) (fun _ _ => trivial) hothers).of_eq (by omega) rfl

theorem readsOperand_select {subject other : Expr} {arms : List (Expr × Expr)}
    (hsubject : ReadsValue subject) (harms : ∀ arm ∈ arms, ReadsValue arm.1 ∧ ReadsBlock arm.2)
    (hother : other = .nop ∨ ReadsBlock other) : ReadsOperand (.select subject arms other) := by
  intro n
  obtain ⟨m, hm, hotherwise⟩ := parses_otherwise hother n
  have hclose : Parses n 0 [.symbol .rbrace] closeSelect () EndsOperand :=
    .skipComments (.eat (.pure _))
  -- what follows the arms starts with `else` or `}`, so no arm is missed
  have hfollow : ∀ next, EndsOperand next →
      (Expr.elseTokens other other.tokens ++ [Token.symbol .rbrace]).headD next ≠
        .keyword .when_ := by
    intro next _
    by_cases hnop : other = .nop <;> simp [Expr.elseTokens, hnop]
  have hread : Parses n _ (.keyword .case_ :: _) (select (level n))
      (.select subject (arms.reverse ++ []).reverse other) EndsOperand :=
    .expect ((hsubject.expr n).bind (fun _ _ => by simp [Closes]) (.expect
      ((parses_arms harms n []).bind hfollow
        (hotherwise.andThen (fun _ _ => rfl) (hclose.last (.pure _))))))
  -- the arms are collected in reverse
  have hreverse : (arms.reverse ++ []).reverse = arms := by simp
  have hnesting : (Expr.select subject arms other).nesting =
      max (1 + subject.nesting) (max (Expr.armsNesting arms) (1 + other.depth)) := rfl
  have htokens : (Expr.select subject arms other).tokens = .keyword .case_ :: (subject.tokens ++
      .symbol .lbrace :: (Expr.armsTokens arms ++
        (Expr.elseTokens other other.tokens ++ [.symbol .rbrace]))) := by
    simp [Expr.tokens, Expr.bracedTokens]
  rw [hreverse] at hread
  rw [htokens]
  exact parses_unary (by simp) (by simp) (by simp) (.peek (hread.of_eq (by omega) rfl))

theorem readsValue_assign {name : String} {value : Expr} (h : ReadsValue value) :
    ReadsValue (.assign name value) :=
  h.assigned (readsOperand_var name) rfl rfl (Nat.zero_max _)

theorem readsValue_assignBuiltin {name : String} {value : Expr} (h : ReadsValue value) :
    ReadsValue (.assignBuiltin name value) :=
  h.assigned (readsOperand_builtin name) rfl rfl (Nat.zero_max _)

theorem readsValue_store {cell : String} {address value : Expr} (haddress : ReadsValue address)
    (h : ReadsValue value) : ReadsValue (.store cell address value) :=
  h.assigned (parses_cell haddress) rfl (by simp [Expr.tokens]) rfl

theorem readsValue_control {property target : String} {value : Expr}
    (hproperty : Text.isName property = true) (htarget : isReference target = true)
    (h : ReadsValue value) : ReadsValue (.control property target value) := by
  have hunsigned := Text.dropWhile_signed hproperty
  have hsensor : ∀ n, Parses n 0 (Expr.referenceTokens target ++ [.symbol .dot, .ident property])
      (unary (level n)) (.sensor target ("@" ++ property)) EndsOperand :=
    fun _ => parses_sensor htarget (parses_property (.inr rfl))
  exact h.assigned hsensor (congrArg (fun name => some (Expr.control name target value)) hunsigned)
    (by simp [Expr.tokens]) (Nat.zero_max _)

/-! ## Section 10: Statements -/

theorem ReadsValue.statement (h : ReadsValue e) (hplace : e.printableAt .block = true)
    (hhome : e.home ≤ .value) : ReadsStatement e := by
  intro n
  obtain ⟨t, ts, htokens, _, hwhile⟩ := Expr.tokens_start hplace (by decide)
  have hexpr := h.expr n
  rw [Expr.depth, Expr.gap_of_home_le hhome]
  rw [htokens] at hexpr ⊢
  refine .peek ?_
  rw [if_neg (hwhile hhome)]
  exact hexpr

theorem readsStatement_loop {cond body : Expr} (hcond : ReadsValue cond) (hbody : ReadsBlock body) :
    ReadsStatement (.loop cond body) := by
  intro n
  have hread : Parses n _ (.keyword .while_ :: _) (loop (level n)) (.loop cond body) Closes :=
    .expect ((hcond.expr n).bind (fun _ _ => by simp [Closes, Expr.bracedTokens])
      ((hbody.block n).last (.pure _)))
  have hdepth : (Expr.loop cond body).depth = 1 + max cond.nesting body.depth :=
    Nat.zero_add _
  have htokens : (Expr.loop cond body).tokens =
      .keyword .while_ :: (cond.tokens ++ Expr.bracedTokens body.tokens) := by
    simp [Expr.tokens]
  rw [htokens]
  exact .peek (hread.of_eq (by omega) rfl)

/-- A parser that reads something is not recovered from. -/
theorem parses_recover {α β : Type} {p : Parse α} {f : α → Parse β} [∀ a, Keeps (f a)] {a : α}
    {b : β} (hp : Parses n k ts p a F) (hts : ts ≠ []) (hf : Parses n 0 [] (f a) b F) :
    Parses n k ts (do
      let ahead := (← get).ahead.length
      let a ← p
      recover ahead
      f a) b F := by
  intro s next more hfresh hnext htokens
  -- the run, with the advance that is made when no token has been read
  have hrun : (do
      let ahead := (← get).ahead.length
      let a ← p
      recover ahead
      f a : Parse β) s =
      f (p s).1 (if (p s).2.ahead.length = s.ahead.length then (p s).2.advance else (p s).2) := rfl
  rcases hp s next more hfresh hnext htokens with ⟨hk, hvalue, hfresh', htokens'⟩ | ⟨hk, hdeep⟩
  · have hmoved := ParseState.length_ahead_lt hts (htokens.trans (by rw [htokens']))
    rw [hrun, if_neg (Nat.ne_of_lt hmoved), hvalue]
    rcases hf _ next more hfresh' hnext htokens' with ⟨_, hresult⟩ | ⟨hzero, _⟩
    · exact .inl ⟨hk, hresult⟩
    · exact absurd hzero (Nat.not_lt_zero n)
  · refine .inr ⟨hk, ?_⟩
    have hrecover : (recover s.ahead.length (p s).2).2.TooDeep := hdeep.keeps
    exact hrecover.keeps (p := f (p s).1)

/-- One round of the statements of a block. -/
theorem parses_nextStatement {closing t : Token} (hclosing : t ≠ closing) (heof : t ≠ .eof)
    (h : Parses n k (t :: ts) (statement (level n)) e F) (before : List Expr) :
    Parses n k (t :: ts) (nextStatement (level n) closing before) (some (e :: before)) F := by
  refine .peek ?_
  rw [if_neg (by simp [hclosing, heof])]
  exact .takeComments (parses_recover h (by simp) (.pure _))

/-- A statement is a block of its own. -/
theorem ReadsStatement.block (h : ReadsStatement e) (hplace : e.printableAt .block = true)
    (hhome : e.home ≤ .statement) : ReadsBlock e := by
  intro n closing hclosing before
  obtain ⟨t, ts, htokens, ht, _⟩ := Expr.tokens_start hplace (by decide)
  simp only [List.mem_cons, List.not_mem_nil, or_false, not_or] at ht
  obtain ⟨_, hrbrace, heof⟩ := ht
  have hcloses : Closes closing := by
    rcases hclosing with rfl | rfl <;> simp [Closes]
  have hsemicolon : closing ≠ .symbol .semicolon := by
    rcases hclosing with rfl | rfl <;> simp
  have hstart : t ≠ closing := by
    rcases hclosing with rfl | rfl
    · exact hrbrace
    · exact heof
  have hstatement : statement (level n) = bareStatement (level n) >>= fun e =>
      Parse.eat (.symbol .semicolon) >>= fun _ => pure e := rfl
  rw [Expr.statements_of_home_le hhome]
  -- the last statement of a block, and one that others follow after a semicolon
  refine ⟨?_, fun hafter => ?_⟩
  · have hread : Parses n e.depth (t :: ts) (statement (level n)) e (· = closing) := by
      rw [hstatement, ← htokens]
      have hbare : Parses n e.depth e.tokens (bareStatement (level n)) e (· = closing) :=
        (h n).before fun _ hnext => hnext ▸ hcloses
      exact hbare.last (.eatOther (fun _ hnext => hnext ▸ hsemicolon) (.pure _))
    have hround := parses_nextStatement hstart heof hread before
    have hdone : Parses n 0 [] (Parse.iterate (nextStatement (level n) closing) (e :: before))
        (e :: before) (· = closing) := by
      refine .iterateDone (.peekNext fun t ht => ?_)
      rw [if_pos (.inl ht)]
      exact .skipComments (.pure none)
    exact (hround.iterateRound (by simp) (fun _ hnext => hnext) hdone).of_eq (Nat.max_zero _)
      (by rw [htokens, List.append_nil])
  · have hread : Parses n e.depth (t :: (ts ++ [.symbol .semicolon])) (statement (level n)) e
        (fun _ => True) := by
      rw [hstatement, ← List.cons_append, ← htokens]
      exact (h n).andThen (fun _ _ => by simp [Closes]) (.eat (.pure _))
    have hround := parses_nextStatement hstart heof hread before
    exact (hround.iterateRound (by simp) (fun _ _ => trivial) hafter).of_eq rfl
      (by simp [htokens])

theorem readsBlock_seq {rest last : Expr} (hrest : ReadsBlock rest) (hlast : ReadsBlock last)
    (hone : last.statements = [last]) : ReadsBlock (.seq rest last) := by
  intro n closing hclosing before
  have hdepth : (Expr.seq rest last).depth = max rest.depth last.depth := Nat.zero_add _
  have hstatements : (Expr.seq rest last).statements.reverse ++ before =
      last.statements.reverse ++ (rest.statements.reverse ++ before) := by
    simp [Expr.statements, hone]
  obtain ⟨_, hmore⟩ := hrest n closing hclosing before
  obtain ⟨hend, hothers⟩ := hlast n closing hclosing (rest.statements.reverse ++ before)
  rw [hstatements]
  refine ⟨(hmore hend).of_eq hdepth.symm rfl, fun hafter => ?_⟩
  exact (hmore (hothers hafter)).of_eq (by omega) (by simp [Expr.tokens])

/-- The tree is read back at each place where it can be printed. -/
structure ReadBack (e : Expr) : Prop where
  operand : e.printableAt .operand = true → ReadsOperand e
  value : e.printableAt .value = true → ReadsValue e
  block : e.printableAt .block = true → ReadsBlock e

namespace ReadBack

/-- A tree whose first place is that of a statement. -/
theorem ofStatement (hhome : e.home = .statement)
    (h : e.printableAt .statement = true → ReadsStatement e) : ReadBack e where
  operand hplace := absurd (hhome ▸ Expr.home_le hplace) (by decide)
  value hplace := absurd (hhome ▸ Expr.home_le hplace) (by decide)
  block hplace := by
    have hle : e.home ≤ .statement := Nat.le_of_eq (congrArg Place.rank hhome)
    exact (h (Expr.printableAt_of_home_le hplace hle)).block hplace hle

/-- A tree that can stand as a value. -/
theorem ofValue (hhome : e.home ≤ .value)
    (hoperand : e.printableAt .operand = true → ReadsOperand e)
    (h : e.printableAt .value = true → ReadsValue e) : ReadBack e where
  operand := hoperand
  value := h
  block hplace := by
    have hvalue := h (Expr.printableAt_of_home_le hplace hhome)
    exact (hvalue.statement hplace hhome).block hplace (Nat.le_succ_of_le hhome)

/-- A tree whose first place is that of an operand. -/
theorem ofOperand (hhome : e.home = .operand)
    (h : e.printableAt .operand = true → ReadsOperand e) : ReadBack e := by
  have hle : ∀ place, e.home ≤ place := fun place => by
    rw [hhome]
    exact Nat.zero_le _
  exact ofValue (hle _) h fun hplace => (h (Expr.printableAt_of_home_le hplace (hle _))).value

/-- A tree whose first place is that of a value. -/
theorem ofAssignment (hhome : e.home = .value) (h : e.printableAt .value = true → ReadsValue e) :
    ReadBack e :=
  ofValue (Nat.le_of_eq (congrArg Place.rank hhome))
    (fun hplace => absurd (hhome ▸ Expr.home_le hplace) (by decide)) h

end ReadBack

/-- Every tree is read back where it can be printed. -/
theorem readBack (e : Expr) : ReadBack e := by
  induction e with
  | null => exact .ofOperand rfl fun _ => readsOperand_null
  | bool value => exact .ofOperand rfl fun _ => readsOperand_bool value
  | num literal => exact .ofOperand rfl readsOperand_num
  | str contents => exact .ofOperand rfl fun _ => readsOperand_str contents
  | var name => exact .ofOperand rfl fun _ => readsOperand_var name
  | builtin name => exact .ofOperand rfl fun _ => readsOperand_builtin name
  -- a sequence is read as a block only: neither an operand nor a value
  | seq rest last ihRest ihLast =>
    have hhome : ¬ Place.block ≤ .value := by decide
    refine ⟨fun h => absurd (Nat.le_succ_of_le (Expr.home_le h)) hhome,
      fun h => absurd (Expr.home_le h) hhome, fun h => ?_⟩
    simp only [Expr.printableAt, Bool.and_eq_true] at h
    obtain ⟨⟨_, hrest⟩, hlast⟩ := h
    -- the last part is a statement, so that the block has it as one
    have hle := Expr.home_le hlast
    exact readsBlock_seq (ihRest.block hrest)
      (ihLast.block (Expr.printableAt_of_home_le hlast (Nat.le_succ_of_le hle)))
      (Expr.statements_of_home_le hle)
  | branch cond yes no ihCond ihYes ihNo =>
    refine .ofOperand rfl fun h => ?_
    simp only [Expr.printableAt, Bool.and_eq_true] at h
    exact readsOperand_branch (ihCond.value h.1.1) (ihYes.block h.1.2)
      ((Expr.elsePart_cases h.2).imp_right ihNo.block)
  | loop cond body ihCond ihBody =>
    refine .ofStatement rfl fun h => ?_
    simp only [Expr.printableAt, Bool.and_eq_true] at h
    exact readsStatement_loop (ihCond.value h.1.2) (ihBody.block h.2)
  | select subject arms otherwise ihSubject ihArms ihOtherwise =>
    refine .ofOperand rfl fun h => ?_
    simp only [Expr.printableAt, Bool.and_eq_true] at h
    refine readsOperand_select (ihSubject.value h.1.1) (fun arm harm => ?_)
      ((Expr.elsePart_cases h.2).imp_right ihOtherwise.block)
    obtain ⟨hpattern, hbody⟩ := Expr.printableAt_of_mem_arms h.1.2 harm
    exact ⟨(ihArms arm harm).1.value hpattern, (ihArms arm harm).2.block hbody⟩
  | assign name value ih =>
    refine .ofAssignment rfl fun h => ?_
    simp only [Expr.printableAt, Bool.and_eq_true] at h
    exact readsValue_assign (ih.value h.2)
  | assignBuiltin name value ih =>
    refine .ofAssignment rfl fun h => ?_
    simp only [Expr.printableAt, Bool.and_eq_true] at h
    exact readsValue_assignBuiltin (ih.value h.2)
  | store cell address value ihAddress ihValue =>
    refine .ofAssignment rfl fun h => ?_
    simp only [Expr.printableAt, Bool.and_eq_true] at h
    exact readsValue_store (ihAddress.value h.1.2) (ihValue.value h.2)
  | control property target value ih =>
    refine .ofAssignment rfl fun h => ?_
    simp only [Expr.printableAt, Bool.and_eq_true] at h
    exact readsValue_control h.1.1.2 h.1.2 (ih.value h.2)
  | load cell address ih =>
    refine .ofOperand rfl fun h => ?_
    simp only [Expr.printableAt, Bool.and_eq_true] at h
    exact readsOperand_load (ih.value h.2)
  | sensor target name =>
    refine .ofOperand rfl fun h => ?_
    simp only [Expr.printableAt, Bool.and_eq_true] at h
    exact readsOperand_sensor h.1 h.2
  | unary op operand ih =>
    refine .ofOperand rfl fun h => ?_
    simp only [Expr.printableAt, Bool.and_eq_true] at h
    exact readsOperand_unary h.1 (ih.operand h.2)
  | binary op left right ihLeft ihRight =>
    refine .ofOperand rfl fun h => ?_
    simp only [Expr.printableAt, Bool.and_eq_true] at h
    exact readsOperand_binary h.1.1 (ihLeft.operand h.1.2) (ihRight.operand h.2)
  | call name args ih =>
    refine .ofOperand rfl fun h => ?_
    simp only [Expr.printableAt, Bool.and_eq_true] at h
    have hvalue : ∀ arg ∈ args, arg.printableAt .value = true :=
      fun arg harg => Expr.printableAt_of_mem_args h.2 harg
    refine readsOperand_call (fun arg harg => (ih arg harg).value (hvalue arg harg)) ?_
    intro arg harg
    -- an argument does not start with `)`, so the list goes on
    obtain ⟨t, ts, htokens, ht, _⟩ := Expr.tokens_start (hvalue arg harg) (by decide)
    exact ⟨t, ts, htokens, fun heq => ht (by simp [heq])⟩
  -- a comment and the empty tree cannot be printed where they could be read back
  | comment text =>
    exact ⟨fun h => absurd h (by simp [Expr.printableAt]),
      fun h => absurd h (by simp [Expr.printableAt]),
      fun h => absurd h (by simp [Expr.printableAt])⟩
  | nop => exact ⟨fun h => absurd h (by decide), fun h => absurd h (by decide),
      fun h => absurd h (by decide)⟩

end Grammar

/-! ## Section 11: Programs -/

/-- The tokens of a printable program parse to it, unless it is nested too
    deeply. -/
theorem parse_tokens {e : Expr} (h : e.printable = true) {tokens : List (Located Token)}
    (htokens : tokens.map Located.value = e.tokens ++ [.eof]) :
    (e.depth ≤ nestingLimit ∧ parse tokens [] = .ok e) ∨
      (nestingLimit < e.depth ∧ ∃ span, parse tokens [] = .error [⟨.tooDeep, span⟩]) := by
  have hstart := ParseState.tokens_start [] (by rw [htokens, List.getLast?_concat])
  have hread := ((Grammar.readBack e).block h).statements (.inr rfl) nestingLimit
  rw [parse_eq]
  rcases hread (.start tokens []) .eof [] ⟨rfl, rfl, rfl⟩ rfl (hstart.trans htokens) with
    ⟨hdepth, hstatements, hfresh, _⟩ | ⟨hdepth, _, span, hfaults⟩
  · refine .inl ⟨hdepth, ?_⟩
    rw [Grammar.program, hstatements, hfresh.faults, Grammar.ofStatements_statements]
    rfl
  · refine .inr ⟨hdepth, span, ?_⟩
    rw [Grammar.program, hfaults]
    rfl

/-- A printable program is read back from its text, unless it is nested too
    deeply: then that is the one fault that is reported. -/
theorem parseSource_text {e : Expr} (h : e.printable = true) :
    (e.depth ≤ nestingLimit ∧ parseSource e.text = .ok e) ∨
      (nestingLimit < e.depth ∧ ∃ span,
        parseSource e.text = .error [SyntaxFault.diagnostic ⟨.tooDeep, span⟩]) := by
  obtain ⟨htokens, hcomments, hfaults⟩ := lex_text h
  have hsource : parseSource e.text =
      (parse (lex e.text).tokens []).mapError (·.map SyntaxFault.diagnostic) := by
    simp [parseSource, hcomments, hfaults]
  rw [hsource]
  rcases parse_tokens h htokens with ⟨hdepth, hparse⟩ | ⟨hdepth, span, hparse⟩
  · rw [hparse]
    exact .inl ⟨hdepth, rfl⟩
  · rw [hparse]
    exact .inr ⟨hdepth, span, rfl⟩

/-- The program `while (a < 3) { a = (a - -1); log[a] = b.@copper }; @dx = y = case @unit.@team
    { when if !ok { 0.5 } else { "//" } { f() } else { b.on = f(not (a ** 2), z) } }`. -/
def patrol : Expr :=
  .seq
    (.loop (.binary "<" (.var "a") (.num "3"))
      (.seq (.assign "a" (.binary "-" (.var "a") (.num "-1")))
        (.store "log" (.var "a") (.sensor "b" "@copper"))))
    (.assignBuiltin "dx" (.assign "y" (.select (.sensor "@unit" "@team")
      [(.branch (.unary "!" (.var "ok")) (.num "0.5") (.str "//"), .call "f" [])]
      (.control "on" "b"
        (.call "f" [.unary "not" (.binary "**" (.var "a") (.num "2")), .var "z"])))))

theorem patrol_readBack : patrol.printable = true ∧ parseSource patrol.text = .ok patrol := by
  have hprintable : patrol.printable = true := by decide
  rcases parseSource_text hprintable with ⟨_, hparse⟩ | ⟨hdeep, _⟩
  · exact ⟨hprintable, hparse⟩
  · exact absurd hdeep (by decide)

end Mlog
