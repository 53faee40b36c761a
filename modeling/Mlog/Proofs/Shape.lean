import Mlog.Proofs.Printable
import Mlog.Proofs.Violations
import Mlog.Source.Span

/-! # The shape of parsed trees

    A tree can be put together in ways that no source text has: a loop as an
    operand, a comment as the last statement of a block, an operator that there
    is none of.  `Shaped site e` says that the tree `e` can come from a source
    text, at a site of it:

    * names are names and no keywords, and so are the properties that are set;
      a property that is read has its sign, and a block that is read or set may
      be a built-in;
    * a loop stands as a statement, a comment as a statement before the last one,
      and `nop` only for a block without statements or an absent else part.

    So there is little that can be wrong in such a tree
    (`Shaped.possible_of_mem_violations`). -/

namespace Mlog

/-! ## Section 1: Shaped trees -/

/-- The binary operators of source texts. -/
def sourceBinary : List String :=
  ["+", "-", "*", "/", "%", "**", "==", "!=", "===", "<", "<=", ">", ">=", "||", "or", "&&", "and"]

/-- Only the remainder cannot be lowered. -/
theorem eq_percent_of_not_lowered {op : String} (h : op ∈ sourceBinary)
    (hnot : op ∉ loweredBinary) :
    op = "%" := by
  simp only [sourceBinary, loweredBinary, List.mem_cons, List.not_mem_nil] at h hnot
  grind

/-- Where a part of a program stands. -/
inductive Site
  /-- Where a value is asked for. -/
  | value
  /-- As a statement of a program or a block. -/
  | statement
  /-- As a whole program, a block, or the else part of an `if` or a `case`. -/
  | block
  /-- As the statements before the last one. -/
  | opening

/-- A tree can come from a site of a source text; see the head of the module. -/
inductive Shaped : Site → Expr → Prop
  | null : Shaped .value .null
  | bool (value) : Shaped .value (.bool value)
  | num {literal} : Text.isNumber literal = true → Shaped .value (.num literal)
  | str {text} : '\n' ∉ text.toList → Shaped .value (.str text)
  | var {name} : Text.isName name = true → Shaped .value (.var name)
  | builtin {name} : Text.isName name = true → Shaped .value (.builtin name)
  | branch {cond yes no} : Shaped .value cond → Shaped .block yes → Shaped .block no →
      Shaped .value (.branch cond yes no)
  | select {subject arms other} : Shaped .value subject → (∀ arm ∈ arms, Shaped .value arm.1) →
      (∀ arm ∈ arms, Shaped .block arm.2) → Shaped .block other →
      Shaped .value (.select subject arms other)
  | assign {name value} : Text.isName name = true → Shaped .value value →
      Shaped .value (.assign name value)
  | assignBuiltin {name value} : Text.isName name = true → Shaped .value value →
      Shaped .value (.assignBuiltin name value)
  | load {cell address} : Text.isName cell = true → Shaped .value address →
      Shaped .value (.load cell address)
  | store {cell address value} : Text.isName cell = true → Shaped .value address →
      Shaped .value value → Shaped .value (.store cell address value)
  | control {property target value} : Text.isName property = true → isReference target = true →
      Shaped .value value → Shaped .value (.control property target value)
  | sensor {target property} : isReference target = true → Text.isSigned property = true →
      Shaped .value (.sensor target property)
  | unary {op operand} : op ∈ loweredUnary → Shaped .value operand →
      Shaped .value (.unary op operand)
  | binary {op left right} : op ∈ sourceBinary → Shaped .value left → Shaped .value right →
      Shaped .value (.binary op left right)
  | call {name args} : Text.isName name = true → (∀ arg ∈ args, Shaped .value arg) →
      Shaped .value (.call name args)
  | expression {e} : Shaped .value e → Shaped .statement e
  | loop {cond body} : Shaped .value cond → Shaped .block body → Shaped .statement (.loop cond body)
  | nop : Shaped .block .nop
  | one {e} : Shaped .statement e → Shaped .block e
  | seq {rest last} : Shaped .opening rest → Shaped .statement last → Shaped .block (.seq rest last)
  | comment (text) : Shaped .opening (.comment text)
  | first {e} : Shaped .statement e → Shaped .opening e
  | next {rest last} : Shaped .opening rest → Shaped .statement last →
      Shaped .opening (.seq rest last)
  | nextComment {rest} (text) : Shaped .opening rest → Shaped .opening (.seq rest (.comment text))

/-! ## Section 2: Lists of statements -/

open Mlog.Expr (ofStatements ofStatements_concat)

/-- A statement or a comment. -/
def ShapedItem (e : Expr) : Prop := Shaped .statement e ∨ ∃ text, e = .comment text

theorem ShapedItem.first {e : Expr} (h : ShapedItem e) : Shaped .opening e := by
  rcases h with h | ⟨text, rfl⟩
  · exact .first h
  · exact .comment text

theorem ShapedItem.next {rest e : Expr} (hrest : Shaped .opening rest) (h : ShapedItem e) :
    Shaped .opening (.seq rest e) := by
  rcases h with h | ⟨text, rfl⟩
  · exact .next hrest h
  · exact .nextComment text hrest

/-- Statements, the latest one first, of which the latest one is no comment. -/
structure ShapedStatements (stmts : List Expr) : Prop where
  items : ∀ e ∈ stmts, ShapedItem e
  latest : ∀ e ∈ stmts.head?, Shaped .statement e

/-- A statement is read with the comments before it. -/
theorem ShapedStatements.next {stmts : List Expr} (h : ShapedStatements stmts)
    (taken : List Comment) {e : Expr} (he : Shaped .statement e) :
    ShapedStatements (e :: (taken.map fun c => Expr.comment c.value).reverse ++ stmts) := by
  constructor
  · intro e' he'
    simp only [List.cons_append, List.mem_cons, List.mem_append, List.mem_reverse,
      List.mem_map] at he'
    rcases he' with rfl | ⟨c, _, rfl⟩ | he'
    · exact .inl he
    · exact .inr ⟨c.value, rfl⟩
    · exact h.items e' he'
  · intro e' he'
    rw [← Option.some.inj he']
    exact he

theorem shaped_opening {stmts : List Expr} (hne : stmts ≠ []) (h : ∀ e ∈ stmts, ShapedItem e) :
    Shaped .opening (ofStatements stmts) := by
  have hfold : ∀ (others : List Expr) {first : Expr}, Shaped .opening first →
      (∀ e ∈ others, ShapedItem e) → Shaped .opening (others.foldl .seq first) := by
    intro others
    induction others with
    | nil => exact fun hfirst _ => hfirst
    | cons second others ih =>
      intro first hfirst hothers
      obtain ⟨hsecond, hothers⟩ := List.forall_mem_cons.mp hothers
      exact ih (hsecond.next hfirst) hothers
  cases stmts with
  | nil => exact absurd rfl hne
  | cons first others =>
    obtain ⟨hfirst, hothers⟩ := List.forall_mem_cons.mp h
    exact hfold others hfirst.first hothers

theorem ShapedStatements.block {stmts : List Expr} (h : ShapedStatements stmts) :
    Shaped .block (ofStatements stmts.reverse) := by
  obtain ⟨hitems, hlatest⟩ := h
  cases stmts with
  | nil => exact .nop
  | cons last before =>
    have hlast : Shaped .statement last := hlatest last rfl
    rw [List.reverse_cons]
    by_cases hnil : before = []
    · rw [hnil]
      exact .one hlast
    · rw [ofStatements_concat (by simpa using hnil)]
      have hbefore : ∀ e ∈ before.reverse, ShapedItem e := by
        intro e he
        exact hitems e (List.mem_cons_of_mem _ (List.mem_reverse.mp he))
      exact .seq (shaped_opening (by simpa using hnil) hbefore) hlast

/-! ## Section 3: What can be wrong -/

/-- The errors that a tree from a source text can have. -/
inductive LoweringError.Possible : LoweringError → Prop
  | remainder : Possible (.unknownBinary "%")
  | function (name) : Possible (.unknownFunction name)
  | arguments (name required given) : Possible (.missingArguments name required given)
  | branchYes (part) : Possible (.noValue .branchYes part)
  | armBody (part) : Possible (.noValue .armBody part)

namespace Shaped

variable {site : Site} {e : Expr}

theorem hasValue (h : Shaped .value e) : e.hasValue = true := by
  cases h <;> rfl

/-- The parts of a shaped tree are shaped, and those that have to have a value
    stand where there is one, but for the blocks of an `if` and a `case`. -/
theorem part (h : Shaped site e) {role? : Option Role} {part : Expr}
    (hpart : (role?, part) ∈ e.parts) :
    ∃ site', Shaped site' part ∧
      (site' = .value ∨ role? ∈ [none, some .branchYes, some .armBody]) := by
  induction h with
  -- one tree at several sites: it has the same parts
  | expression _ ih | one _ ih | first _ ih => exact ih hpart
  | branch hcond hyes hno =>
    simp only [Expr.parts, List.mem_cons, Prod.mk.injEq, List.not_mem_nil, or_false] at hpart
    rcases hpart with ⟨rfl, rfl⟩ | ⟨rfl, rfl⟩ | ⟨rfl, rfl⟩
    · exact ⟨_, hcond, .inl rfl⟩
    -- the blocks may end without a value
    · exact ⟨_, hyes, .inr (by simp)⟩
    · exact ⟨_, hno, .inr (by simp)⟩
  | select hsubject hpatterns hbodies hother =>
    simp only [Expr.parts, List.mem_cons, List.mem_append, List.mem_flatMap, Prod.mk.injEq,
      List.not_mem_nil, or_false] at hpart
    rcases hpart with ⟨rfl, rfl⟩ | ⟨arm, harm, ⟨rfl, rfl⟩ | ⟨rfl, rfl⟩⟩ | ⟨rfl, rfl⟩
    · exact ⟨_, hsubject, .inl rfl⟩
    · exact ⟨_, hpatterns arm harm, .inl rfl⟩
    · exact ⟨_, hbodies arm harm, .inr (by simp)⟩
    · exact ⟨_, hother, .inr (by simp)⟩
  | call _ hargs =>
    simp only [Expr.parts, List.mem_map, Prod.mk.injEq] at hpart
    obtain ⟨⟨arg, i⟩, harg, rfl, rfl⟩ := hpart
    exact ⟨_, hargs _ (List.fst_mem_of_mem_zipIdx harg), .inl rfl⟩
  | loop hcond hbody =>
    simp only [Expr.parts, List.mem_cons, Prod.mk.injEq, List.not_mem_nil, or_false] at hpart
    rcases hpart with ⟨rfl, rfl⟩ | ⟨rfl, rfl⟩
    · exact ⟨_, hcond, .inl rfl⟩
    · exact ⟨_, hbody, .inr (by simp)⟩
  | seq hrest hlast | next hrest hlast =>
    simp only [Expr.parts, List.mem_cons, Prod.mk.injEq, List.not_mem_nil, or_false] at hpart
    rcases hpart with ⟨rfl, rfl⟩ | ⟨rfl, rfl⟩
    · exact ⟨_, hrest, .inr (by simp)⟩
    · exact ⟨_, hlast, .inr (by simp)⟩
  | nextComment text hrest =>
    simp only [Expr.parts, List.mem_cons, Prod.mk.injEq, List.not_mem_nil, or_false] at hpart
    rcases hpart with ⟨rfl, rfl⟩ | ⟨rfl, rfl⟩
    · exact ⟨_, hrest, .inr (by simp)⟩
    · exact ⟨_, .comment text, .inr (by simp)⟩
  | store _ hleft hright | binary _ hleft hright =>
    simp only [Expr.parts, List.mem_cons, Prod.mk.injEq, List.not_mem_nil, or_false] at hpart
    rcases hpart with ⟨rfl, rfl⟩ | ⟨rfl, rfl⟩
    · exact ⟨_, hleft, .inl rfl⟩
    · exact ⟨_, hright, .inl rfl⟩
  | assign _ hvalue | assignBuiltin _ hvalue | load _ hvalue | control _ _ hvalue
  | unary _ hvalue =>
    simp only [Expr.parts, List.mem_cons, Prod.mk.injEq, List.not_mem_nil, or_false] at hpart
    obtain ⟨rfl, rfl⟩ := hpart
    exact ⟨_, hvalue, .inl rfl⟩
  | _ => exact absurd hpart List.not_mem_nil

/-- The operators of a shaped tree are known, but for the remainder. -/
theorem possible_of_mem_unsupported (h : Shaped site e) {error : LoweringError}
    (herror : error ∈ e.unsupported) : error.Possible := by
  induction h with
  | expression _ ih | one _ ih | first _ ih => exact ih herror
  -- all unary operators that can be written are known
  | unary hop => simp [Expr.unsupported, hop] at herror
  | binary hop =>
    simp only [Expr.unsupported] at herror
    split at herror
    · exact absurd herror List.not_mem_nil
    -- of the binary ones, `%` alone is not
    · rename_i hnot
      rw [List.mem_singleton.mp herror, eq_percent_of_not_lowered hop hnot]
      exact .remainder
  | call =>
    simp only [Expr.unsupported] at herror
    split at herror
    · rw [List.mem_singleton.mp herror]
      exact .function _
    · split at herror
      · rw [List.mem_singleton.mp herror]
        exact .arguments ..
      · exact absurd herror List.not_mem_nil
  | _ => exact absurd herror List.not_mem_nil

theorem possible_of_mem_missing {role? : Option Role} {part : Expr} {error : LoweringError}
    (h : Shaped site part) (hrole : site = .value ∨ role? ∈ [none, some .branchYes, some .armBody])
    (herror : error ∈ Expr.missing (role?, part)) : error.Possible := by
  cases role? with
  | none => exact absurd herror List.not_mem_nil
  | some role =>
    simp only [Expr.missing] at herror
    by_cases hvalue : part.hasValue = true
    · rw [if_pos hvalue] at herror
      exact absurd herror List.not_mem_nil
    · rw [if_neg hvalue] at herror
      rw [List.mem_singleton.mp herror]
      rcases hrole with rfl | hrole
      · exact absurd h.hasValue hvalue
      · simp only [List.mem_cons, Option.some.injEq, List.not_mem_nil, or_false, reduceCtorEq,
          false_or] at hrole
        rcases hrole with rfl | rfl
        · exact .branchYes part
        · exact .armBody part

/-- Nothing else can be wrong in a shaped tree. -/
theorem possible_of_mem_violations (h : Shaped site e) {error : LoweringError}
    (herror : error ∈ e.violations) : error.Possible := by
  induction e using Expr.parts_induction generalizing site with
  | step e ih =>
    rw [Expr.violations_eq, List.mem_append] at herror
    rcases herror with hparts | hown
    · obtain ⟨⟨role?, part⟩, hmem, herror⟩ := List.mem_flatMap.mp hparts
      obtain ⟨site', hpart, hrole⟩ := h.part hmem
      rcases List.mem_append.mp herror with hinside | hmissing
      · exact ih _ hmem hpart hinside
      · exact hpart.possible_of_mem_missing hrole hmissing
    · exact h.possible_of_mem_unsupported hown

end Shaped

end Mlog
