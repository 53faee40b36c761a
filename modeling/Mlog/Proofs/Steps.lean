import Mlog.Parse.Grammar

/-! # Steps of a parse

    What every parser of the grammar does to the state of a parse, whatever
    the tokens are: it moves the cursor forward, drops comments, notes faults
    and perhaps gives up.  So a fact about states that these moves keep is
    kept by all parsers (`Keeps`): a fault that has been noted stays noted,
    a parse that was given up stays so, and tokens that were passed are not
    ahead again.

    Some facts are about the places of faults.  All places that are noted are those
    of tokens under the cursor, or merged from such places, so it is enough that a
    fact is kept for a kind of places with these in it (`Sticky P`, `KeepsAt P`).

    `Ensures W p R` is the contract of a parser about its result: if the parse still
    counts after `p`, the result is as `R` says.  What is kept of the states on the
    way, and which parses count, is up to the `Watch`. -/

namespace Mlog

/-! ## Section 1: The tokens from the cursor on -/

namespace ParseState

/-- The tokens from the cursor on. -/
def tokens (s : ParseState) : List Token := (s.current :: s.ahead).map Located.value

theorem tokens_eq (s : ParseState) :
    s.tokens = s.current.value :: s.ahead.map Located.value := rfl

@[simp] theorem comments_advance (s : ParseState) : s.advance.comments = s.comments := by
  unfold advance
  split <;> rfl

@[simp] theorem faults_advance (s : ParseState) : s.advance.faults = s.faults := by
  unfold advance
  split <;> rfl

@[simp] theorem aborted_advance (s : ParseState) : s.advance.aborted = s.aborted := by
  unfold advance
  split <;> rfl

/-- Moving on from a token that has another one after it. -/
theorem tokens_advance {s : ParseState} {t u : Token} {ts : List Token}
    (h : s.tokens = t :: u :: ts) : s.advance.tokens = u :: ts := by
  rw [tokens_eq, List.cons.injEq] at h
  unfold advance
  cases hahead : s.ahead with
  | nil => simp [hahead] at h
  | cons v vs =>
    rw [hahead] at h
    exact h.2

theorem skipComments_of_nil {s : ParseState} (h : s.comments = []) : s.skipComments = s := by
  obtain ⟨current, ahead, comments, faults, aborted⟩ := s
  obtain rfl : comments = [] := h
  rfl

theorem length_ahead_lt {s s' : ParseState} {used : List Token} (hused : used ≠ [])
    (h : s.tokens = used ++ s'.tokens) : s'.ahead.length < s.ahead.length := by
  have hlength := congrArg List.length h
  have hpos : 0 < used.length := List.length_pos_iff.mpr hused
  simp only [tokens, List.length_append, List.length_map, List.length_cons] at hlength
  omega

/-- Tokens that end in an end of file are parsed as they are. -/
theorem tokens_start {tokens : List (Located Token)} (comments : List Comment)
    (h : (tokens.map Located.value).getLast? = some .eof) :
    (start tokens comments).tokens = tokens.map Located.value := by
  rw [List.getLast?_map] at h
  obtain ⟨last, hlast, heof⟩ := Option.map_eq_some_iff.mp h
  have hclosed : closed tokens = tokens := by simp [closed, hlast, heof]
  cases tokens with
  | nil => exact absurd hlast (by simp)
  | cons first others => simp [start, hclosed, tokens]

theorem report_of_aborted {s : ParseState} (h : s.aborted = true) (fault : SyntaxFault)
    (span : Span) : s.report fault span = s := if_pos h

theorem faults_report_of_going {s : ParseState} (h : s.aborted = false) (fault : SyntaxFault)
    (span : Span) : (s.report fault span).faults = ⟨fault, span⟩ :: s.faults := by
  unfold report
  rw [if_neg (by simp [h])]

end ParseState

/-- Moving past a token if it is there, and then going on. -/
theorem Parse.eat_bind {β : Type} (token : Token) (f : Bool → Parse β) (s : ParseState) :
    (Parse.eat token >>= f) s =
      if s.current.value = token then f true s.advance else f false s := by
  have hs : Parse.eat token s =
      if s.current.value = token then (true, s.advance) else (false, s) := rfl
  show f (Parse.eat token s).1 (Parse.eat token s).2 = _
  rw [hs]
  split <;> rfl

/-! ## Section 2: Facts that stay -/

/-- A kind of places: two of them merged are of that kind again. -/
structure Places where
  mem : Span → Prop
  merge : ∀ {a b}, mem a → mem b → mem (a.merge b)

/-- Places of any kind. -/
def Places.all : Places := ⟨fun _ => True, fun _ _ => trivial⟩

/-- A fact about states that every move of a parse keeps, if faults are noted at
    places of a kind only.  The token under the cursor has such a place. -/
structure Sticky (P : Places) (K : ParseState → Prop) : Prop where
  advance : ∀ {s}, K s → K s.advance
  skipAll : ∀ {s} token, K s → K (s.skipAll token)
  skipComments : ∀ {s}, K s → K s.skipComments
  report : ∀ {s} fault span, P.mem span → K s → K (s.report fault span)
  abort : ∀ {s}, K s → K s.abort
  here : ∀ {s}, K s → P.mem s.current.span := by exact fun _ => trivial

/-- A parser that keeps all such facts. -/
class KeepsAt (P : Places) {α : Type} (p : Parse α) : Prop where
  keeps : ∀ {K : ParseState → Prop}, Sticky P K → ∀ {s}, K s → K (p s).2

/-- A parser that keeps all facts that do not depend on where faults are noted. -/
abbrev Keeps {α : Type} (p : Parse α) : Prop := KeepsAt .all p

namespace KeepsAt

variable {P : Places} {α β : Type} {p q : Parse α}

instance pure (a : α) : KeepsAt P (pure a : Parse α) := ⟨fun _ _ h => h⟩

theorem ofBind {f : α → Parse β} (hp : KeepsAt P p) (hf : ∀ a, KeepsAt P (f a)) :
    KeepsAt P (p >>= f) := ⟨fun hK _ h => (hf _).keeps hK (hp.keeps hK h)⟩

instance bind {f : α → Parse β} [hp : KeepsAt P p] [hf : ∀ a, KeepsAt P (f a)] :
    KeepsAt P (p >>= f) := ofBind hp hf

instance discard [KeepsAt P p] : KeepsAt P (discard p) :=
  bind (f := fun _ => Pure.pure PUnit.unit)

instance ite {c : Prop} [Decidable c] [hp : KeepsAt P p] [hq : KeepsAt P q] :
    KeepsAt P (if c then p else q) := by
  split
  · exact hp
  · exact hq

instance get : KeepsAt P (get : Parse ParseState) := ⟨fun _ _ h => h⟩

instance peek : KeepsAt P Parse.peek := ⟨fun _ _ h => h⟩

instance here : KeepsAt P Parse.here := ⟨fun _ _ h => h⟩

/-- What is done with the place of the token under the cursor. -/
theorem ofHere {f : Span → Parse β} (hf : ∀ span, P.mem span → KeepsAt P (f span)) :
    KeepsAt P (Parse.here >>= f) := ⟨fun hK _ h => (hf _ (hK.here h)).keeps hK h⟩

instance advance : KeepsAt P Parse.advance := ⟨fun hK _ h => hK.advance h⟩

instance eat (token : Token) : KeepsAt P (Parse.eat token) := by
  refine ⟨fun {K} hK s h => ?_⟩
  have heat : Parse.eat token s =
      if s.current.value = token then (true, s.advance) else (false, s) := rfl
  rw [heat]
  split
  · exact hK.advance h
  · exact h

instance report (fault : SyntaxFault) : KeepsAt P (Parse.report fault) :=
  ⟨fun hK _ h => hK.report _ _ (hK.here h) h⟩

theorem reportAt (fault : SyntaxFault) {span : Span} (hspan : P.mem span) :
    KeepsAt P (Parse.reportAt fault span) := ⟨fun hK _ h => hK.report _ _ hspan h⟩

instance skipComments : KeepsAt P Parse.skipComments := ⟨fun hK _ h => hK.skipComments h⟩

instance takeComments : KeepsAt P Parse.takeComments := ⟨fun hK _ h => hK.skipComments h⟩

instance skipAll (token : Token) : KeepsAt P (modify (·.skipAll token) : Parse Unit) :=
  ⟨fun hK _ h => hK.skipAll _ h⟩

instance expect (token : Token) : KeepsAt P (Parse.expect token) := by
  unfold Parse.expect
  infer_instance

instance expectName : KeepsAt P Parse.expectName := by
  refine ofBind peek fun t => ?_
  split <;> infer_instance

instance iterate {step : α → Parse (Option α)} [hstep : ∀ a, KeepsAt P (step a)] (a : α) :
    KeepsAt P (Parse.iterate step a) := by
  refine ⟨fun {K} hK s => ?_⟩
  fun_induction Parse.iterate step a s with
  | case1 a s s' hround => exact fun h => by simpa [hround] using (hstep a).keeps hK h
  | case2 a s b s' hround _ ih => exact fun h => ih (by simpa [hround] using (hstep a).keeps hK h)
  | case3 a s b s' hround _ => exact fun h => by simpa [hround] using (hstep a).keeps hK h

end KeepsAt

/-! ## Section 3: Contracts -/

/-- What is watched in parses: a fact about the states on the way, and which states
    they may end in to count.  A parse that does not count at some point does not
    count later on either. -/
structure Watch (P : Places) where
  holds : ParseState → Prop
  counts : ParseState → Prop
  lost : Sticky P fun s => ¬ counts s

/-- A fact that is watched in all parses. -/
def Watch.fact (P : Places) (K : ParseState → Prop) : Watch P where
  holds := K
  counts := fun _ => True
  lost :=
    { advance := fun h => absurd trivial h
      skipAll := fun _ h => absurd trivial h
      skipComments := fun h => absurd trivial h
      report := fun _ _ _ h => absurd trivial h
      abort := fun h => absurd trivial h
      here := fun h => absurd trivial h }

/-- If the parse counts after `p`, the fact still holds and the result is as `R`
    says. -/
structure Ensures {P : Places} (W : Watch P) {α : Type} (p : Parse α) (R : α → Prop) : Prop where
  ensures : ∀ s, W.holds s → W.counts (p s).2 → W.holds (p s).2 ∧ R (p s).1

/-- A parse that counts at the end has counted all the way. -/
theorem Watch.counts_of {P : Places} (W : Watch P) {α : Type} {p : Parse α} [hp : KeepsAt P p]
    {s : ParseState} (h : W.counts (p s).2) : W.counts s :=
  Classical.byContradiction fun hlost => hp.keeps W.lost hlost h

namespace Ensures

variable {P : Places} {W : Watch P} {α β : Type} {p : Parse α} {R S : α → Prop} {T : β → Prop}

theorem pure {a : α} (h : R a) : Ensures W (pure a) R := ⟨fun _ hs _ => ⟨hs, h⟩⟩

theorem post (h : Ensures W p R) (hpost : ∀ a, R a → S a) : Ensures W p S := by
  constructor
  intro s hs hcounts
  obtain ⟨hs', hR⟩ := h.ensures s hs hcounts
  exact ⟨hs', hpost _ hR⟩

/-- One parser after another. -/
theorem bind {f : α → Parse β} [∀ a, KeepsAt P (f a)] (hp : Ensures W p R)
    (hf : ∀ a, R a → Ensures W (f a) T) : Ensures W (p >>= f) T := by
  constructor
  intro s hs hcounts
  obtain ⟨hs', hR⟩ := hp.ensures s hs (W.counts_of hcounts)
  exact (hf _ hR).ensures _ hs' hcounts

/-- A step whose result does not matter, and then going on. -/
theorem step {f : α → Parse β} (hp : ∀ s, W.holds s → W.holds (p s).2)
    (hf : ∀ a, Ensures W (f a) T) : Ensures W (p >>= f) T :=
  ⟨fun s hs hcounts => (hf _).ensures _ (hp s hs) hcounts⟩

/-- What is done with the place of the token under the cursor. -/
theorem here {f : Span → Parse β} (hW : Sticky P W.holds)
    (hf : ∀ span, P.mem span → Ensures W (f span) T) : Ensures W (Parse.here >>= f) T :=
  ⟨fun s hs hcounts => (hf _ (hW.here hs)).ensures s hs hcounts⟩

/-- A repetition keeps the invariant of its rounds. -/
theorem iterate {round : α → Parse (Option α)} [∀ a, KeepsAt P (round a)] {I : α → Prop}
    (hround : ∀ a, I a → Ensures W (round a) fun next => ∀ b ∈ next, I b) {a : α} (h : I a) :
    Ensures W (Parse.iterate round a) I := by
  constructor
  intro s
  fun_induction Parse.iterate round a s with
  | case1 a s s' heq =>
    intro hs hcounts
    have hnext := (hround a h).ensures s hs
    rw [heq] at hnext
    exact ⟨(hnext hcounts).1, h⟩
  | case2 a s b s' heq _ ih =>
    -- the rounds after this one have not brought the parse back
    intro hs hcounts
    have hnext := (hround a h).ensures s hs
    rw [heq] at hnext
    obtain ⟨hs', hI⟩ := hnext (W.counts_of hcounts)
    exact ih (hI b rfl) hs' hcounts
  | case3 a s b s' heq _ =>
    intro hs hcounts
    have hnext := (hround a h).ensures s hs
    rw [heq] at hnext
    obtain ⟨hs', hI⟩ := hnext hcounts
    exact ⟨hs', hI b rfl⟩

end Ensures

/-! ## Section 4: The grammar -/

/-- All parsers of a level keep such facts. -/
class KeepsInnerAt (P : Places) (inner : Inner) : Prop where
  expr : KeepsAt P inner.expr
  statements : KeepsAt P inner.statements
  rightOperand : ∀ power, KeepsAt P (inner.rightOperand power)
  negated : KeepsAt P inner.negated
  elseIf : KeepsAt P inner.elseIf

attribute [instance] KeepsInnerAt.expr KeepsInnerAt.statements KeepsInnerAt.rightOperand
  KeepsInnerAt.negated KeepsInnerAt.elseIf

abbrev KeepsInner (inner : Inner) : Prop := KeepsInnerAt .all inner

namespace Grammar

variable {P : Places} {inner : Inner} [KeepsInnerAt P inner]

instance keeps_block : KeepsAt P (block inner) := by
  unfold block
  infer_instance

instance keeps_property : KeepsAt P property := by
  unfold property
  infer_instance

instance keeps_builtin : KeepsAt P builtin := by
  unfold builtin
  infer_instance

instance keeps_nextArgument (args : List Expr) : KeepsAt P (nextArgument inner args) := by
  unfold nextArgument
  infer_instance

instance keeps_arguments : KeepsAt P (arguments inner) := by
  unfold arguments
  infer_instance

instance keeps_suffix (name : String) : KeepsAt P (suffix inner name) := by
  refine .ofBind .peek fun t => ?_
  split <;> infer_instance

instance keeps_branch : KeepsAt P (branch inner) := by
  unfold branch
  infer_instance

instance keeps_nextArm (arms : List (Expr × Expr)) : KeepsAt P (nextArm inner arms) := by
  unfold nextArm
  infer_instance

instance keeps_otherwise : KeepsAt P (otherwise inner) := by
  unfold otherwise
  infer_instance

instance keeps_closeSelect : KeepsAt P closeSelect := by
  unfold closeSelect
  infer_instance

instance keeps_select : KeepsAt P (select inner) := by
  unfold select
  infer_instance

instance keeps_primary : KeepsAt P (primary inner) := by
  refine .ofBind .peek fun t => ?_
  split <;> infer_instance

instance keeps_negation : KeepsAt P (negation inner) := by
  refine .ofBind .peek fun t => ?_
  split <;> infer_instance

/-- The fault is noted at the first sign of a run, which is behind the cursor by
    then. -/
instance keeps_unary : KeepsAt P (unary inner) := by
  have hsigned : ∀ start, P.mem start → KeepsAt P (do
      Parse.advance
      match ← Parse.peek with
      | .number text => Parse.advance; return Expr.num ("-" ++ text)
      | _ =>
        Parse.reportAt .negation start
        modify (·.skipAll (.symbol .minus))
        negation inner) := by
    intro start hstart
    have hreport := KeepsAt.reportAt .negation hstart
    refine .ofBind .advance fun _ => .ofBind .peek fun t => ?_
    split <;> infer_instance
  refine .ofBind .peek fun t => ?_
  split
  · exact .ofHere hsigned
  · infer_instance

instance keeps_nextOperation (power : Nat) (left : Expr) :
    KeepsAt P (nextOperation inner power left) := by
  refine .ofBind .peek fun t => ?_
  split <;> infer_instance

instance keeps_binary (power : Nat) : KeepsAt P (binary inner power) := by
  unfold binary
  infer_instance

omit [KeepsInnerAt P inner] in
theorem keeps_assign (target value : Expr) {span : Span} (hspan : P.mem span) :
    KeepsAt P (assign target span value) := by
  have hreport := KeepsAt.reportAt (.badTarget target) hspan
  unfold assign
  split <;> infer_instance

omit [KeepsInnerAt P inner] in
theorem keeps_assignAll {targets : List (Expr × Span)}
    (htargets : ∀ target ∈ targets, P.mem target.2) (value : Expr) :
    KeepsAt P (targets.foldlM (fun value target => assign target.1 target.2 value) value) := by
  induction targets generalizing value with
  | nil => exact .pure _
  | cons target targets ih =>
    rw [List.foldlM_cons]
    apply KeepsAt.ofBind
    · exact keeps_assign _ _ (htargets _ List.mem_cons_self)
    · exact ih fun t ht => htargets t (List.mem_cons_of_mem _ ht)

instance keeps_assignAnywhere (targets : List (Expr × Span)) (value : Expr) :
    Keeps (targets.foldlM (fun value target => assign target.1 target.2 value) value) :=
  keeps_assignAll (fun _ _ => trivial) value

instance keeps_link (targets : List (Expr × Span)) : KeepsAt P (link inner targets) := by
  unfold link
  infer_instance

instance keeps_nextAssignment (chain : Chain) : KeepsAt P (nextAssignment inner chain) := by
  unfold nextAssignment
  infer_instance

/-- The places that a chain of assignments hands on. -/
structure Chain.At (P : Places) (chain : Chain) : Prop where
  start : P.mem chain.start
  targets : ∀ target ∈ chain.targets, P.mem target.2

section

variable {K : ParseState → Prop} (hK : Sticky P K)
include hK

theorem ensures_link {targets : List (Expr × Span)}
    (htargets : ∀ target ∈ targets, P.mem target.2) :
    Ensures (.fact P K) (link inner targets) (Chain.At P) := by
  apply Ensures.here hK
  intro start hstart
  apply Ensures.step fun _ hs => KeepsAt.keeps hK hs
  intro last
  exact .pure ⟨hstart, htargets⟩

/-- The place of a target and its sign is merged from the start of the link,
    however much was skipped behind it, and the sign under the cursor. -/
theorem ensures_nextAssignment {chain : Chain} (hchain : chain.At P) :
    Ensures (.fact P K) (nextAssignment inner chain) fun next => ∀ chain' ∈ next, chain'.At P := by
  apply Ensures.step fun _ hs => hs
  intro token
  split
  · apply Ensures.here hK
    intro sign hsign
    apply Ensures.step fun _ hs => hK.advance hs
    intro _
    have htargets : ∀ target ∈ (chain.last, chain.start.merge sign) :: chain.targets,
        P.mem target.2 := List.forall_mem_cons.mpr ⟨P.merge hchain.start hsign, hchain.targets⟩
    apply (ensures_link hK htargets).bind
    intro next hnext
    exact .pure (by simpa using hnext)
  · exact .pure (by simp)

end

instance keeps_assignment : KeepsAt P (assignment inner) := by
  refine ⟨fun {K} hK s hs => ?_⟩
  have hchain : Ensures (.fact P K) (link inner [] >>= Parse.iterate (nextAssignment inner))
      (Chain.At P) := by
    apply (ensures_link hK (by simp)).bind
    intro first hfirst
    exact .iterate (fun _ => ensures_nextAssignment hK) hfirst
  obtain ⟨hs', hchain⟩ := hchain.ensures s hs trivial
  exact (keeps_assignAll hchain.targets _).keeps hK hs'

instance keeps_loop : KeepsAt P (loop inner) := by
  unfold loop
  infer_instance

instance keeps_bareStatement : KeepsAt P (bareStatement inner) := by
  unfold bareStatement
  infer_instance

instance keeps_statement : KeepsAt P (statement inner) := by
  unfold statement
  infer_instance

instance keeps_recover (ahead : Nat) : KeepsAt P (recover ahead) := by
  refine ⟨fun {K} hK s h => ?_⟩
  show K (if s.ahead.length = ahead then s.advance else s)
  split
  · exact hK.advance h
  · exact h

instance keeps_nextStatement (closing : Token) (stmts : List Expr) :
    KeepsAt P (nextStatement inner closing stmts) := by
  unfold nextStatement
  infer_instance

instance keeps_statements (closing : Token) : KeepsAt P (statements inner closing) := by
  unfold statements
  infer_instance

instance keeps_giveUp {α : Type} (a : α) : KeepsAt P (giveUp a) := ⟨fun hK _ h => hK.abort h⟩

/-- The parsers of every level keep what all moves keep. -/
instance keepsInner_level (n : Nat) : KeepsInnerAt P (level n) := by
  induction n with
  | zero =>
    exact ⟨keeps_giveUp _, keeps_giveUp _, fun _ => keeps_giveUp _, keeps_giveUp _,
      keeps_giveUp _⟩
  | succ n ih =>
    exact ⟨keeps_assignment, keeps_statements _, fun power => keeps_binary power, keeps_unary,
      keeps_branch⟩

end Grammar

/-! ## Section 5: Facts that stay -/

theorem faults_skipAll (s : ParseState) (token : Token) :
    (s.skipAll token).faults = s.faults ∧ (s.skipAll token).aborted = s.aborted := by
  have hgo : ∀ ahead current, (ParseState.skipAll.go token s current ahead).faults = s.faults ∧
      (ParseState.skipAll.go token s current ahead).aborted = s.aborted := by
    intro ahead
    induction ahead with
    | nil => exact fun _ => ⟨rfl, rfl⟩
    | cons t ts ih =>
      intro current
      unfold ParseState.skipAll.go
      split
      · exact ih t
      · exact ⟨rfl, rfl⟩
  exact hgo s.ahead s.current

theorem length_ahead_skipAll (s : ParseState) (token : Token) :
    (s.skipAll token).ahead.length ≤ s.ahead.length := by
  have hgo : ∀ ahead current,
      (ParseState.skipAll.go token s current ahead).ahead.length ≤ ahead.length := by
    intro ahead
    induction ahead with
    | nil => exact fun _ => Nat.le_refl _
    | cons t ts ih =>
      intro current
      unfold ParseState.skipAll.go
      split
      · exact Nat.le_succ_of_le (ih t)
      · exact Nat.le_refl _
  exact hgo s.ahead s.current

/-- A fault that has been noted stays noted. -/
theorem sticky_faulty : Sticky .all fun s => s.faults ≠ [] := by
  have hreport : ∀ {s : ParseState} fault span, s.faults ≠ [] →
      (s.report fault span).faults ≠ [] := by
    intro s fault span h
    cases hgoing : s.aborted with
    | true => rwa [ParseState.report_of_aborted hgoing]
    | false => simp [ParseState.faults_report_of_going hgoing]
  exact
    { advance := fun h => by rwa [ParseState.faults_advance]
      skipAll := fun token h => by rwa [(faults_skipAll _ token).1]
      skipComments := fun h => h
      report := fun fault span _ => hreport fault span
      abort := fun h => hreport _ _ h }

/-- Once the parse has been given up, no more faults are noted. -/
theorem sticky_aborted (faults : List (Located SyntaxFault)) :
    Sticky .all fun s => s.aborted = true ∧ s.faults = faults :=
  { advance := fun h => by simpa using h
    skipAll := fun token h => by
      rwa [(faults_skipAll _ token).1, (faults_skipAll _ token).2]
    skipComments := fun h => h
    report := fun _ _ _ h => by rwa [ParseState.report_of_aborted h.1]
    abort := fun {s} h => by
      have habort : s.abort.faults = (s.report .tooDeep s.current.span).faults := rfl
      rw [habort, ParseState.report_of_aborted h.1]
      exact ⟨rfl, h.2⟩ }

/-- The cursor moves forward only. -/
theorem sticky_ahead (bound : Nat) : Sticky .all fun s => s.ahead.length ≤ bound :=
  { advance := fun {s} h => by
      unfold ParseState.advance
      split
      · exact h
      · rename_i t ts hahead
        simp only [hahead, List.length_cons] at h
        exact Nat.le_of_succ_le h
    skipAll := fun token h => Nat.le_trans (length_ahead_skipAll _ token) h
    skipComments := fun h => h
    report := fun fault span _ h => by
      unfold ParseState.report
      split <;> exact h
    abort := fun _ => Nat.zero_le _ }

/-! ## Section 6: Answers -/

/-- What parsing tokens gives, in terms of the state that it ends in. -/
theorem parse_eq (tokens : List (Located Token)) (comments : List Comment) :
    parse tokens comments =
      if (Grammar.program (.start tokens comments)).2.faults.isEmpty
      then .ok (Expr.ofStatements (Grammar.program (.start tokens comments)).1)
      else .error (Grammar.program (.start tokens comments)).2.faults.reverse := rfl

/-- The parser accepts a token list iff it notes no fault. -/
theorem parse_eq_ok_iff {tokens : List (Located Token)} {comments : List Comment} {e : Expr} :
    parse tokens comments = .ok e ↔
      (Grammar.program (.start tokens comments)).2.faults = [] ∧
        Expr.ofStatements (Grammar.program (.start tokens comments)).1 = e := by
  rw [parse_eq]
  by_cases hempty : (Grammar.program (.start tokens comments)).2.faults = []
  · simp [hempty]
  · simp [hempty]

end Mlog
