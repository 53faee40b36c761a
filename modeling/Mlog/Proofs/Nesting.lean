import Mlog.Expr.Equality
import Mlog.Proofs.Assembly
import Mlog.Proofs.Steps

/-! # The nesting limit bounds trees

    The parser goes a level further in for most parts of a node, and gives up
    beyond the limit.  So a tree that it accepts has no path with more such
    parts on it than the limit allows.  Only what is read in loops on one level
    can be as long as the program: statements, left operands, and the values of
    assignments.

    * `Expr.Path e path`: a path from the root of a tree to a leaf, which says of
      each edge whether it goes deeper.
    * `Shallow n e`: fewer than `n` edges of each path go deeper.
    * `Delivers p R`: if the parse has not been given up after `p`, the result of
      `p` is as `R` says.  It is the contract `Ensures` for parses that go on.

    Where the parse is given up, the results are stopgaps that may be put into
    any tree, so the bound is about parses that go on.  The induction is on the
    height of the tower of levels: `n` levels give trees that are `Shallow n`. -/

namespace Mlog

/-! ## Section 1: Paths -/

namespace Expr

/-- Does the edge to the part with a number go deeper?  All do, but those to
    statements, to a left operand and to the value of an assignment. -/
def goesDeeper : Expr → Nat → Bool
  | seq _ _, _ => false
  | assign _ _, _ => false
  | assignBuiltin _ _, _ => false
  | control _ _ _, _ => false
  -- the address comes first, and then the value
  | store _ _ _, i => i == 0
  -- the left operand comes first
  | binary _ _ _, i => i != 0
  | _, _ => true

/-- A path from the root to a leaf: of each edge, does it go deeper? -/
inductive Path : Expr → List Bool → Prop
  | leaf {e : Expr} : e.children = [] → Path e []
  | edge {e part : Expr} {path : List Bool} (i : Nat) : e.children[i]? = some part →
      Path part path → Path e (e.goesDeeper i :: path)

theorem exists_path (e : Expr) : ∃ path, e.Path path := by
  induction e using children_induction with
  | step e ih =>
    cases hchildren : e.children with
    | nil => exact ⟨[], .leaf hchildren⟩
    | cons first others =>
      obtain ⟨path, hpath⟩ := ih first (by simp [hchildren])
      exact ⟨_, .edge 0 (by simp [hchildren]) hpath⟩

end Expr

open Mlog.Expr (ofStatements)

/-- On each path from the root to a leaf, fewer than `n` edges go deeper. -/
def Shallow (n : Nat) (e : Expr) : Prop := ∀ path, e.Path path → path.count true < n

namespace Shallow

variable {n : Nat} {e : Expr}

theorem mono {m : Nat} (h : Shallow n e) (hle : n ≤ m) : Shallow m e := by
  intro path hpath
  have hlt := h path hpath
  omega

/-- There is a path in every tree, so no tree is shallow enough for no level at
    all. -/
theorem pos (h : Shallow n e) : 0 < n := by
  obtain ⟨path, hpath⟩ := e.exists_path
  have hlt := h path hpath
  omega

/-- A tree is as shallow as its parts are, less one level where the edge to
    the part goes deeper. -/
theorem ofParts
    (h : ∀ i part, e.children[i]? = some part →
      Shallow (if e.goesDeeper i then n else n + 1) part) : Shallow (n + 1) e := by
  intro path hpath
  cases hpath with
  | leaf _ => simp
  | edge i hpart hpath =>
    have hlt := h i _ hpart _ hpath
    cases hdeeper : e.goesDeeper i with
    | true =>
      rw [hdeeper] at hlt
      simp only [if_true] at hlt
      simp only [List.count_cons_self]
      omega
    | false =>
      rw [hdeeper] at hlt
      simpa using hlt

/-- A node all of whose edges go deeper. -/
theorem deeper (hdeeper : ∀ i, e.goesDeeper i = true) (h : ∀ part ∈ e.children, Shallow n part) :
    Shallow (n + 1) e := by
  apply ofParts
  intro i part hpart
  rw [hdeeper i]
  exact h part (List.mem_of_getElem? hpart)

/-- A node with one part. -/
theorem one {part : Expr} (hchildren : e.children = [part])
    (h : Shallow (if e.goesDeeper 0 then n else n + 1) part) : Shallow (n + 1) e := by
  apply ofParts
  intro i part' hpart
  rw [hchildren] at hpart
  cases i with
  | zero =>
    obtain rfl := Option.some.inj hpart
    exact h
  | succ i => exact absurd hpart (by simp)

/-- A node with two parts. -/
theorem two {first second : Expr} (hchildren : e.children = [first, second])
    (hfirst : Shallow (if e.goesDeeper 0 then n else n + 1) first)
    (hsecond : Shallow (if e.goesDeeper 1 then n else n + 1) second) : Shallow (n + 1) e := by
  apply ofParts
  intro i part hpart
  rw [hchildren] at hpart
  rcases i with _ | _ | i
  · obtain rfl := Option.some.inj hpart
    exact hfirst
  · obtain rfl := Option.some.inj hpart
    exact hsecond
  · exact absurd hpart (by simp)

theorem leaf (hpos : 0 < n) (hchildren : e.children = []) : Shallow n e := by
  obtain ⟨m, rfl⟩ := Nat.exists_eq_add_one.mpr hpos
  apply ofParts
  intro i part hpart
  exact absurd hpart (by simp [hchildren])

/-- The address of a memory cell stands a level below the cell. -/
theorem address {cell : String} {address : Expr} (h : Shallow (n + 1) (.load cell address)) :
    Shallow n address := by
  intro path hpath
  have hlt := h _ (.edge 0 rfl hpath)
  simp only [Expr.goesDeeper, List.count_cons_self] at hlt
  omega

/-- Statements are no deeper together than each of them. -/
theorem ofStatements {stmts : List Expr} (h : ∀ stmt ∈ stmts, Shallow (n + 1) stmt) :
    Shallow (n + 1) (ofStatements stmts) := by
  cases stmts with
  | nil => exact leaf (Nat.succ_pos n) rfl
  | cons first others =>
    obtain ⟨hfirst, hothers⟩ := List.forall_mem_cons.mp h
    show Shallow (n + 1) (others.foldl .seq first)
    clear h
    induction others generalizing first with
    | nil => exact hfirst
    | cons next others ih =>
      obtain ⟨hnext, hothers⟩ := List.forall_mem_cons.mp hothers
      exact ih (.seq first next) (two rfl hfirst hnext) hothers

end Shallow

/-! ## Section 2: Parses that go on -/

/-- A parse that was given up stays so. -/
theorem sticky_givenUp : Sticky .all fun s => ¬ s.aborted = false where
  advance := fun h => by rwa [ParseState.aborted_advance]
  skipAll := fun token h => by rwa [(faults_skipAll _ token).2]
  skipComments := fun h => h
  report := fun {s} fault span _ h => by
    rwa [ParseState.report_of_aborted (by simpa using h)]
  abort := fun _ => by simp [ParseState.abort]

/-- Parses that have not been given up, in any states. -/
def going : Watch .all := ⟨fun _ => True, fun s => s.aborted = false, sticky_givenUp⟩

/-- What a parser gives if the parse has not been given up after it. -/
abbrev Delivers {α : Type} (p : Parse α) (R : α → Prop) : Prop := Ensures going p R

namespace Delivers

variable {α β : Type} {p : Parse α} {R : α → Prop} {T : β → Prop}

/-- A step whose result does not matter, and then going on. -/
theorem step {f : α → Parse β} (hf : ∀ a, Delivers (f a) T) : Delivers (p >>= f) T :=
  Ensures.step (fun _ _ => trivial) hf

/-- Nothing goes on where the parse is given up. -/
theorem giveUp (a : α) : Delivers (Grammar.giveUp a) R := by
  constructor
  intro s _ hgoing
  have haborted : (Grammar.giveUp a s).2.aborted = true := rfl
  exact absurd (haborted.symm.trans hgoing) (by simp)

end Delivers

/-! ## Section 3: The rules of one level -/

/-- The parsers of a level give trees that are shallow enough. -/
structure ShallowInner (n : Nat) (inner : Inner) : Prop where
  expr : Delivers inner.expr (Shallow n)
  statements : Delivers inner.statements fun stmts => Shallow n (ofStatements stmts)
  rightOperand : ∀ power, Delivers (inner.rightOperand power) (Shallow n)
  negated : Delivers inner.negated (Shallow n)
  elseIf : Delivers inner.elseIf (Shallow n)

namespace Grammar

variable {n : Nat} {inner : Inner} [KeepsInner inner]

omit [KeepsInner inner] in
theorem delivers_block (h : ShallowInner n inner) : Delivers (block inner) (Shallow n) := by
  apply Delivers.step
  intro _
  apply h.statements.bind
  intro stmts hstmts
  exact Delivers.step fun _ => .pure hstmts

theorem delivers_builtin : Delivers builtin (Shallow (n + 1)) := by
  apply Delivers.step
  intro name
  apply Delivers.step
  intro dotted
  cases dotted with
  | true => exact .step fun _ => .pure (.leaf (Nat.succ_pos n) rfl)
  | false => exact .pure (.leaf (Nat.succ_pos n) rfl)

omit [KeepsInner inner] in
theorem delivers_nextArgument (h : ShallowInner n inner) {args : List Expr}
    (hargs : ∀ arg ∈ args, Shallow n arg) :
    Delivers (nextArgument inner args) fun next => ∀ args ∈ next, ∀ arg ∈ args, Shallow n arg := by
  apply Delivers.step
  intro comma
  cases comma with
  | true =>
    apply h.expr.bind
    intro e he
    apply Ensures.pure
    simpa using ⟨he, hargs⟩
  | false => exact .pure (by simp)

theorem delivers_arguments (h : ShallowInner n inner) :
    Delivers (arguments inner) fun args => ∀ arg ∈ args, Shallow n arg := by
  apply Delivers.step
  intro none
  cases none with
  | true => exact .pure (by simp)
  | false =>
    apply h.expr.bind
    intro first hfirst
    have hone : ∀ arg ∈ [first], Shallow n arg := by simpa using hfirst
    apply (Ensures.iterate (fun _ => delivers_nextArgument h) hone).bind
    intro args hargs
    exact Delivers.step fun _ => .pure (by simpa using hargs)

theorem delivers_suffix (h : ShallowInner n inner) (name : String) :
    Delivers (suffix inner name) (Shallow (n + 1)) := by
  apply Delivers.step
  intro t
  split
  -- a call
  · apply Delivers.step
    intro _
    apply (delivers_arguments h).bind
    intro args hargs
    apply Ensures.pure
    apply Shallow.deeper fun _ => rfl
    rwa [Expr.children_call]
  -- a memory cell
  · apply Delivers.step
    intro _
    apply h.expr.bind
    intro address haddress
    exact Delivers.step fun _ => .pure (.one rfl haddress)
  -- a property, or just the name
  · exact .step fun _ => .step fun _ => .pure (.leaf (Nat.succ_pos n) rfl)
  · exact .pure (.leaf (Nat.succ_pos n) rfl)

theorem delivers_branch (h : ShallowInner n inner) : Delivers (branch inner) (Shallow (n + 1)) := by
  have hbranch : ∀ {cond yes no : Expr}, Shallow n cond → Shallow n yes → Shallow n no →
      Shallow (n + 1) (.branch cond yes no) := by
    intro cond yes no hcond hyes hno
    apply Shallow.deeper fun _ => rfl
    simpa [Expr.children, Expr.parts] using ⟨hcond, hyes, hno⟩
  apply Delivers.step
  intro _
  apply h.expr.bind
  intro cond hcond
  apply (delivers_block h).bind
  intro yes hyes
  apply Delivers.step
  intro otherwise
  cases otherwise with
  | true =>
    apply Delivers.step
    intro t
    split
    -- `else if` is a branch on the next level, so that its edge counts
    · apply h.elseIf.bind
      intro no hno
      exact .pure (hbranch hcond hyes hno)
    · apply (delivers_block h).bind
      intro no hno
      exact .pure (hbranch hcond hyes hno)
  | false => exact .pure (hbranch hcond hyes (.leaf hcond.pos rfl))

/-- All arms of a `case` are shallow enough. -/
def ShallowArms (n : Nat) (arms : List (Expr × Expr)) : Prop :=
  ∀ arm ∈ arms, Shallow n arm.1 ∧ Shallow n arm.2

theorem delivers_nextArm (h : ShallowInner n inner) {arms : List (Expr × Expr)}
    (harms : ShallowArms n arms) :
    Delivers (nextArm inner arms) fun next => ∀ arms ∈ next, ShallowArms n arms := by
  apply Delivers.step
  intro _
  apply Delivers.step
  intro arm
  cases arm with
  | true =>
    apply h.expr.bind
    intro pattern hpattern
    apply (delivers_block h).bind
    intro body hbody
    apply Ensures.pure
    intro arms harms'
    rw [← Option.some.inj harms']
    exact List.forall_mem_cons.mpr ⟨⟨hpattern, hbody⟩, harms⟩
  | false => exact .pure (by simp)

theorem delivers_select (h : ShallowInner n inner) : Delivers (select inner) (Shallow (n + 1)) := by
  apply Delivers.step
  intro _
  apply h.expr.bind
  intro subject hsubject
  apply Delivers.step
  intro _
  have hnone : ShallowArms n [] := by simp [ShallowArms]
  apply (Ensures.iterate (fun _ => delivers_nextArm h) hnone).bind
  intro arms harms
  -- without an `else` the last part is a leaf
  have hotherwise : Delivers (otherwise inner) (Shallow n) := by
    apply Delivers.step
    intro found
    cases found with
    | true => exact delivers_block h
    | false => exact .pure (.leaf hsubject.pos rfl)
  apply hotherwise.bind
  intro other hother
  apply Delivers.step
  intro _
  apply Ensures.pure
  -- the parts of the node are the subject, both parts of each arm, and the `else`
  apply Shallow.deeper fun _ => rfl
  rw [Expr.children_select, List.forall_mem_cons, List.forall_mem_append,
    List.forall_mem_singleton]
  refine ⟨hsubject, ?_, hother⟩
  intro part hpart
  obtain ⟨arm, harm, hpart⟩ := List.mem_flatMap.mp hpart
  have hshallow := harms arm (List.mem_reverse.mp harm)
  rcases List.mem_cons.mp hpart with rfl | hpart
  · exact hshallow.1
  · rw [List.mem_singleton.mp hpart]
    exact hshallow.2

theorem delivers_primary (h : ShallowInner n inner) :
    Delivers (primary inner) (Shallow (n + 1)) := by
  apply Delivers.step
  intro t
  have hleaf : ∀ {e : Expr}, e.children = [] → Shallow (n + 1) e := .leaf (Nat.succ_pos n)
  split
  · exact .step fun _ => .pure (hleaf rfl)
  · exact .step fun _ => .pure (hleaf rfl)
  · exact .step fun _ => .pure (hleaf rfl)
  · exact .step fun _ => .pure (hleaf rfl)
  · exact .step fun _ => .pure (hleaf rfl)
  · exact .step fun _ => delivers_builtin
  · exact .step fun _ => delivers_suffix h _
  · exact delivers_branch h
  · exact delivers_select h
  · apply Delivers.step
    intro _
    apply h.expr.bind
    intro e he
    -- parentheses take a level and make no edge
    exact Delivers.step fun _ => .pure (he.mono (Nat.le_succ n))
  -- no expression starts here
  · exact .step fun _ => .pure (hleaf rfl)
  · exact .step fun _ => .pure (hleaf rfl)
  · exact .step fun _ => .step fun _ => .pure (hleaf rfl)

/-! ## Section 4: Operations and assignments -/

theorem delivers_negation (h : ShallowInner n inner) :
    Delivers (negation inner) (Shallow (n + 1)) := by
  apply Delivers.step
  intro t
  split
  · apply Delivers.step
    intro _
    apply h.negated.bind
    intro e he
    exact .pure (.one rfl he)
  · apply Delivers.step
    intro _
    apply h.negated.bind
    intro e he
    exact .pure (.one rfl he)
  · exact delivers_primary h

theorem delivers_unary (h : ShallowInner n inner) : Delivers (unary inner) (Shallow (n + 1)) := by
  apply Delivers.step
  intro t
  split
  · apply Delivers.step
    intro start
    apply Delivers.step
    intro _
    apply Delivers.step
    intro u
    split
    -- a minus belongs to the number after it, and is a fault before anything else
    · exact .step fun _ => .pure (.leaf (Nat.succ_pos n) rfl)
    · exact .step fun _ => .step fun _ => delivers_negation h
  · exact delivers_negation h

omit [KeepsInner inner] in
theorem delivers_nextOperation (h : ShallowInner n inner) (power : Nat) {left : Expr}
    (hleft : Shallow (n + 1) left) :
    Delivers (nextOperation inner power left) fun next => ∀ e ∈ next, Shallow (n + 1) e := by
  apply Delivers.step
  intro t
  cases t.binaryOperator? with
  | none => exact .pure (by simp)
  | some operator =>
    obtain ⟨op, binding⟩ := operator
    by_cases hlt : binding.left < power
    · simp only [hlt, if_true]
      exact .pure (by simp)
    · simp only [hlt, if_false]
      apply Delivers.step
      intro _
      apply (h.rightOperand binding.right).bind
      intro right hright
      apply Ensures.pure
      intro e he
      rw [← Option.some.inj he]
      exact .two rfl hleft hright

theorem delivers_binary (h : ShallowInner n inner) (power : Nat) :
    Delivers (binary inner power) (Shallow (n + 1)) := by
  apply (delivers_unary h).bind
  intro first hfirst
  exact .iterate (fun _ => delivers_nextOperation h power) hfirst

omit [KeepsInner inner] in
theorem delivers_assign {target value : Expr} (htarget : Shallow (n + 1) target)
    (hvalue : Shallow (n + 1) value) (span : Span) :
    Delivers (assign target span value) (Shallow (n + 1)) := by
  cases target with
  | var name => exact .pure (.one rfl hvalue)
  | builtin name => exact .pure (.one rfl hvalue)
  | load cell address => exact .pure (.two rfl htarget.address hvalue)
  | sensor block name => exact .pure (.one rfl hvalue)
  -- nothing else can be assigned to; that is reported, and the value stays
  | _ => exact .step fun _ => .pure hvalue

/-- A chain of shallow left sides that ends in a shallow expression. -/
def ShallowChain (n : Nat) (chain : Chain) : Prop :=
  (∀ target ∈ chain.targets, Shallow n target.1) ∧ Shallow n chain.last

theorem delivers_link (h : ShallowInner n inner) {targets : List (Expr × Span)}
    (htargets : ∀ target ∈ targets, Shallow (n + 1) target.1) :
    Delivers (link inner targets) (ShallowChain (n + 1)) := by
  apply Delivers.step
  intro start
  apply (delivers_binary h 0).bind
  intro e he
  exact .pure ⟨htargets, he⟩

theorem delivers_nextAssignment (h : ShallowInner n inner) {chain : Chain}
    (hchain : ShallowChain (n + 1) chain) :
    Delivers (nextAssignment inner chain) fun next =>
      ∀ chain ∈ next, ShallowChain (n + 1) chain := by
  apply Delivers.step
  intro t
  split
  · apply Delivers.step
    intro place
    apply Delivers.step
    intro _
    have htargets : ∀ target ∈ (chain.last, chain.start.merge place) :: chain.targets,
        Shallow (n + 1) target.1 := List.forall_mem_cons.mpr ⟨hchain.2, hchain.1⟩
    apply (delivers_link h htargets).bind
    intro next hnext
    exact .pure (by simpa using hnext)
  · exact .pure (by simp)

omit [KeepsInner inner] in
theorem delivers_assignAll {targets : List (Expr × Span)} {value : Expr}
    (htargets : ∀ target ∈ targets, Shallow (n + 1) target.1) (hvalue : Shallow (n + 1) value) :
    Delivers (targets.foldlM (fun value target => assign target.1 target.2 value) value)
      (Shallow (n + 1)) := by
  induction targets generalizing value with
  | nil => exact .pure hvalue
  | cons target targets ih =>
    obtain ⟨htarget, htargets⟩ := List.forall_mem_cons.mp htargets
    rw [List.foldlM_cons]
    apply (delivers_assign htarget hvalue target.2).bind
    intro e he
    exact ih htargets he

theorem delivers_assignment (h : ShallowInner n inner) :
    Delivers (assignment inner) (Shallow (n + 1)) := by
  apply (delivers_link h (by simp)).bind
  intro first hfirst
  apply (Ensures.iterate (fun _ => delivers_nextAssignment h) hfirst).bind
  intro chain hchain
  exact delivers_assignAll hchain.1 hchain.2

/-! ## Section 5: Statements -/

theorem delivers_statement (h : ShallowInner n inner) :
    Delivers (statement inner) (Shallow (n + 1)) := by
  have hloop : Delivers (loop inner) (Shallow (n + 1)) := by
    apply Delivers.step
    intro _
    apply h.expr.bind
    intro cond hcond
    apply (delivers_block h).bind
    intro body hbody
    exact .pure (.two rfl hcond hbody)
  have hbare : Delivers (bareStatement inner) (Shallow (n + 1)) := by
    apply Delivers.step
    intro t
    split
    · exact hloop
    -- an expression is read one level further in, which the statement does not need
    · exact h.expr.post fun _ he => he.mono (Nat.le_succ n)
  apply hbare.bind
  intro e he
  exact Delivers.step fun _ => .pure he

theorem delivers_nextStatement (h : ShallowInner n inner) (closing : Token) {stmts : List Expr}
    (hstmts : ∀ stmt ∈ stmts, Shallow (n + 1) stmt) :
    Delivers (nextStatement inner closing stmts) fun next =>
      ∀ stmts ∈ next, ∀ stmt ∈ stmts, Shallow (n + 1) stmt := by
  apply Delivers.step
  intro t
  split
  · exact .step fun _ => .pure (by simp)
  · apply Delivers.step
    intro taken
    apply Delivers.step
    intro s
    apply (delivers_statement h).bind
    intro e he
    apply Delivers.step
    intro _
    apply Ensures.pure
    intro stmts' hstmts' stmt hstmt
    rw [← Option.some.inj hstmts', List.cons_append, List.mem_cons, List.mem_append] at hstmt
    -- a statement that is new, a comment that stood before it, or an earlier statement
    rcases hstmt with rfl | hcomment | hstmt
    · exact he
    · obtain ⟨c, _, rfl⟩ := List.mem_map.mp (List.mem_reverse.mp hcomment)
      exact .leaf (Nat.succ_pos n) rfl
    · exact hstmts stmt hstmt

theorem delivers_statements (h : ShallowInner n inner) (closing : Token) :
    Delivers (statements inner closing) fun stmts => Shallow (n + 1) (ofStatements stmts) := by
  have hnone : ∀ stmt ∈ ([] : List Expr), Shallow (n + 1) stmt := by simp
  apply (Ensures.iterate (fun _ => delivers_nextStatement h closing) hnone).bind
  intro stmts hstmts
  exact .pure (.ofStatements fun stmt hstmt => hstmts stmt (List.mem_reverse.mp hstmt))

/-- `n` levels give trees with fewer than `n` levels in them. -/
theorem shallowInner_level (n : Nat) : ShallowInner n (level n) := by
  induction n with
  | zero => exact ⟨.giveUp _, .giveUp _, fun _ => .giveUp _, .giveUp _, .giveUp _⟩
  | succ n ih =>
    exact ⟨delivers_assignment ih, delivers_statements ih _, fun power => delivers_binary ih power,
      delivers_unary ih, delivers_branch ih⟩

end Grammar

/-! ## Section 6: Programs -/

/-- A parse is given up with a fault. -/
theorem sticky_faulty_of_aborted : Sticky .all fun s => s.aborted = true → s.faults ≠ [] where
  advance := fun h => by simpa using h
  skipAll := fun token h => by rwa [(faults_skipAll _ token).1, (faults_skipAll _ token).2]
  skipComments := fun h => h
  report := fun {s} fault span _ h => by
    cases hgoing : s.aborted with
    | true => rwa [ParseState.report_of_aborted hgoing]
    | false => simp [ParseState.faults_report_of_going hgoing]
  abort := fun {s} h _ => by
    show (s.report .tooDeep s.current.span).faults ≠ []
    cases hgoing : s.aborted with
    | true => rw [ParseState.report_of_aborted hgoing]; exact h hgoing
    | false => simp [ParseState.faults_report_of_going hgoing]

/-- A parse that ends without a fault has not been given up. -/
theorem going_of_faults_eq_nil {tokens : List (Located Token)} {comments : List Comment}
    (h : (Grammar.program (.start tokens comments)).2.faults = []) :
    (Grammar.program (.start tokens comments)).2.aborted = false := by
  have hkeeps : Keeps Grammar.program := Grammar.keeps_statements .eof
  have hfaulty := hkeeps.keeps sticky_faulty_of_aborted (s := .start tokens comments)
    (fun haborted => absurd haborted (by simp [ParseState.start]))
  cases haborted : (Grammar.program (.start tokens comments)).2.aborted with
  | false => rfl
  | true => exact absurd h (hfaulty haborted)

/-- In the tree of an accepted program, no path has more edges that go deeper
    than the limit allows. -/
theorem nesting_of_parse {tokens : List (Located Token)} {comments : List Comment} {e : Expr}
    (h : parse tokens comments = .ok e) :
    ∀ path, e.Path path → path.count true ≤ nestingLimit := by
  obtain ⟨hnone, rfl⟩ := parse_eq_ok_iff.mp h
  have hdelivers := Grammar.delivers_statements (Grammar.shallowInner_level nestingLimit) .eof
  have hshallow := (hdelivers.ensures _ trivial (going_of_faults_eq_nil hnone)).2
  intro path hpath
  exact Nat.le_of_lt_succ (hshallow path hpath)

/-- A name with so many `not` before it. -/
def negations : Nat → Expr
  | 0 => .var "x"
  | n + 1 => .unary "not" (negations n)

theorem path_negations (n : Nat) : (negations n).Path (List.replicate n true) := by
  induction n with
  | zero => exact .leaf rfl
  | succ n ih => exact .edge 0 rfl ih

/-- The tokens of a loop that is nested as deeply as the limit allows: before the
    name in its condition, `not` stands 255 times. -/
def deepLoop : List (Located Token) :=
  let tokens : List Token := .keyword .while_ :: List.replicate 255 (.keyword .not_) ++
    [.ident "x", .symbol .lbrace, .symbol .rbrace]
  tokens.map fun t => ⟨t, ⟨0, 0⟩⟩

theorem nesting_of_deepLoop :
    parse deepLoop [] = .ok (.loop (negations 255) .nop) ∧
    (∀ path, (Expr.loop (negations 255) .nop).Path path → path.count true ≤ 256) ∧
    ∃ path, (Expr.loop (negations 255) .nop).Path path ∧ path.count true = 256 := by
  have hparse : parse deepLoop [] = .ok (.loop (negations 255) .nop) :=
    parse_eq_ok_iff.mpr ⟨by decide +kernel, by decide +kernel⟩
  have hcount : (true :: List.replicate 255 true).count true = 256 := by
    rw [List.count_cons_self, List.count_replicate_self]
  exact ⟨hparse, nesting_of_parse hparse, _, .edge 0 rfl (path_negations 255), hcount⟩

end Mlog
