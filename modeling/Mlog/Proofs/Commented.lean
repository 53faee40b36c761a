import Mathlib.Data.List.Forall2
import Mlog.Proofs.Violations

/-! # Comments in trees

    Comments stand between the statements of a program and mean nothing.
    `Commented scope e bare` says that the tree `e` is the tree `bare` with
    comments put before statements, and before statements only: the last
    statement of a block is never a comment, so a block keeps its value.

    * `Expr.comments`: the comments of a tree in their order.
    * `Commented.sameCode`: a tree with comments and the tree without them have
      the same code, or both have none.

    A list of statements is folded from the left, so a comment is on the right
    of what stands before it.  While the list is not complete it may end in
    comments: that is the scope `opening`. -/

namespace Mlog

/-! ## Section 1: The comments of a tree -/

namespace Expr

/-- The text of a node that is a comment. -/
def ownComment : Expr → List String
  | comment text => [text]
  | _ => []

/-- The texts of the comments in a tree, in the order of its parts. -/
def comments (e : Expr) : List String :=
  e.ownComment ++ e.parts.attach.flatMap fun part => part.1.2.comments
termination_by sizeOf e
decreasing_by exact sizeOf_part_lt part.2

theorem comments_eq (e : Expr) :
    e.comments = e.ownComment ++ e.parts.flatMap fun part => part.2.comments := by
  rw [comments]
  congr 1
  rw [List.flatMap_subtype (g := fun part => part.2.comments) (fun _ _ => rfl),
    List.unattach_attach]

@[simp] theorem comments_comment (text : String) : (comment text).comments = [text] := by
  rw [comments_eq]
  rfl

@[simp] theorem comments_seq (rest last : Expr) :
    (seq rest last).comments = rest.comments ++ last.comments := by
  rw [comments_eq]
  simp [parts, ownComment]

@[simp] theorem comments_branch (cond yes no : Expr) :
    (branch cond yes no).comments = cond.comments ++ (yes.comments ++ no.comments) := by
  rw [comments_eq]
  simp [parts, ownComment]

@[simp] theorem comments_loop (cond body : Expr) :
    (loop cond body).comments = cond.comments ++ body.comments := by
  rw [comments_eq]
  simp [parts, ownComment]

@[simp] theorem comments_select (subject otherwise : Expr) (arms : List (Expr × Expr)) :
    (select subject arms otherwise).comments =
      subject.comments ++ ((arms.flatMap fun arm => arm.1.comments ++ arm.2.comments) ++
        otherwise.comments) := by
  rw [comments_eq]
  simp [parts, ownComment, List.flatMap_assoc]

@[simp] theorem comments_call (name : String) (args : List Expr) :
    (call name args).comments = args.flatMap comments := by
  rw [comments_eq]
  simp only [parts, ownComment, List.flatMap_map, List.nil_append]
  conv_rhs => rw [← List.zipIdx_map_fst 1 args, List.flatMap_map]

@[simp] theorem comments_store (cell : String) (address value : Expr) :
    (store cell address value).comments = address.comments ++ value.comments := by
  rw [comments_eq]
  simp [parts, ownComment]

@[simp] theorem comments_binary (op : String) (left right : Expr) :
    (binary op left right).comments = left.comments ++ right.comments := by
  rw [comments_eq]
  simp [parts, ownComment]

/-- A node with one part. -/
theorem comments_of_part {e part : Expr} {role? : Option Role} (hown : e.ownComment = [])
    (hparts : e.parts = [(role?, part)]) : e.comments = part.comments := by
  rw [comments_eq, hown, hparts]
  simp

@[simp] theorem comments_assign (name : String) (value : Expr) :
    (assign name value).comments = value.comments := comments_of_part rfl rfl

@[simp] theorem comments_assignBuiltin (name : String) (value : Expr) :
    (assignBuiltin name value).comments = value.comments := comments_of_part rfl rfl

@[simp] theorem comments_load (cell : String) (address : Expr) :
    (load cell address).comments = address.comments := comments_of_part rfl rfl

@[simp] theorem comments_control (property target : String) (value : Expr) :
    (control property target value).comments = value.comments := comments_of_part rfl rfl

@[simp] theorem comments_unary (op : String) (operand : Expr) :
    (unary op operand).comments = operand.comments := comments_of_part rfl rfl

/-- A node without parts. -/
theorem comments_of_leaf {e : Expr} (hparts : e.parts = []) : e.comments = e.ownComment := by
  rw [comments_eq, hparts]
  simp

/-- The comments of statements stand in the order of the statements. -/
theorem comments_ofStatements (stmts : List Expr) :
    (ofStatements stmts).comments = stmts.flatMap comments := by
  have hfold : ∀ (others : List Expr) (first : Expr),
      (others.foldl seq first).comments = first.comments ++ others.flatMap comments := by
    intro others
    induction others with
    | nil => simp
    | cons second others ih =>
      intro first
      rw [List.foldl_cons, ih, comments_seq, List.flatMap_cons, List.append_assoc]
  cases stmts with
  | nil => exact comments_of_leaf rfl
  | cons first others => exact hfold others first

theorem exists_part_of_arg {name : String} {args : List Expr} {arg : Expr} (h : arg ∈ args) :
    ∃ role?, (role?, arg) ∈ (call name args).parts := by
  rw [← List.zipIdx_map_fst 1 args] at h
  obtain ⟨⟨arg, i⟩, hmem, rfl⟩ := List.mem_map.mp h
  exact ⟨_, List.mem_map_of_mem hmem⟩

theorem parts_of_arm (subject otherwise : Expr) {arms : List (Expr × Expr)} {arm : Expr × Expr}
    (h : arm ∈ arms) :
    (some .pattern, arm.1) ∈ (select subject arms otherwise).parts ∧
      (some .armBody, arm.2) ∈ (select subject arms otherwise).parts := by
  constructor <;> apply List.mem_cons_of_mem <;> apply List.mem_append_left <;>
    exact List.mem_flatMap.mpr ⟨arm, h, by simp⟩

end Expr

/-! ## Section 2: Trees with comments -/

/-- What part of a program a tree is. -/
inductive Scope
  /-- An expression or a statement. -/
  | single
  /-- All statements of a block. -/
  | block
  /-- The statements of a block up to some point; comments may be the last of
      them. -/
  | opening

/-- Nothing but comments, one after another. -/
inductive OnlyComments : Expr → Prop
  | one (text) : OnlyComments (.comment text)
  | more {rest} (text) : OnlyComments rest → OnlyComments (.seq rest (.comment text))

/-- Two arms of a `case` are alike in their patterns and in their bodies. -/
inductive ArmAlike (P B : Expr → Expr → Prop) : Expr × Expr → Expr × Expr → Prop
  | mk {pattern pattern' body body'} : P pattern pattern' → B body body' →
      ArmAlike P B (pattern, body) (pattern', body')

/-- The first tree is the second one with comments put before statements. -/
inductive Commented : Scope → Expr → Expr → Prop
  | same (e) : Commented .single e e
  | branch {cond cond' yes yes' no no'} : Commented .single cond cond' →
      Commented .block yes yes' → Commented .block no no' →
      Commented .single (.branch cond yes no) (.branch cond' yes' no')
  | loop {cond cond' body body'} : Commented .single cond cond' → Commented .block body body' →
      Commented .single (.loop cond body) (.loop cond' body')
  | select {subject subject' arms arms' other other'} : Commented .single subject subject' →
      List.Forall₂ (ArmAlike (Commented .single) (Commented .block)) arms arms' →
      Commented .block other other' →
      Commented .single (.select subject arms other) (.select subject' arms' other')
  | assign (name) {value value'} : Commented .single value value' →
      Commented .single (.assign name value) (.assign name value')
  | assignBuiltin (name) {value value'} : Commented .single value value' →
      Commented .single (.assignBuiltin name value) (.assignBuiltin name value')
  | load (cell) {address address'} : Commented .single address address' →
      Commented .single (.load cell address) (.load cell address')
  | store (cell) {address address' value value'} : Commented .single address address' →
      Commented .single value value' →
      Commented .single (.store cell address value) (.store cell address' value')
  | control (property target) {value value'} : Commented .single value value' →
      Commented .single (.control property target value) (.control property target value')
  | unary (op) {operand operand'} : Commented .single operand operand' →
      Commented .single (.unary op operand) (.unary op operand')
  | binary (op) {left left' right right'} : Commented .single left left' →
      Commented .single right right' →
      Commented .single (.binary op left right) (.binary op left' right')
  | call (name) {args args'} : List.Forall₂ (Commented .single) args args' →
      Commented .single (.call name args) (.call name args')
  | one {e e'} : Commented .single e e' → Commented .block e e'
  /-- Comments before the first statement of a block that has no other one. -/
  | lead {rest last last'} : OnlyComments rest → Commented .single last last' →
      Commented .block (.seq rest last) last'
  | seq {rest rest' last last'} : Commented .opening rest rest' → Commented .single last last' →
      Commented .block (.seq rest last) (.seq rest' last')
  | all {e e'} : Commented .block e e' → Commented .opening e e'
  /-- A comment before the next statement. -/
  | trail {rest rest'} (text) : Commented .opening rest rest' →
      Commented .opening (.seq rest (.comment text)) rest'

/-! ## Section 3: Lists of statements -/

open Mlog.Expr (ofStatements ofStatements_concat)

theorem onlyComments_ofStatements {texts : List String} (h : texts ≠ []) :
    OnlyComments (ofStatements (texts.map .comment)) := by
  have hfold : ∀ (texts : List String) {first : Expr}, OnlyComments first →
      OnlyComments ((texts.map Expr.comment).foldl .seq first) := by
    intro texts
    induction texts with
    | nil => exact fun hfirst => hfirst
    | cons text texts ih => exact fun hfirst => ih (.more text hfirst)
  cases texts with
  | nil => exact absurd rfl h
  | cons text texts => exact hfold texts (.one text)

/-- Comments after statements, before the next one is there. -/
theorem Commented.appendComments (texts : List String) {stmts : List Expr} {bare : Expr}
    (hne : stmts ≠ []) (h : Commented .opening (ofStatements stmts) bare) :
    Commented .opening (ofStatements (stmts ++ texts.map .comment)) bare := by
  induction texts generalizing stmts with
  | nil => simpa using h
  | cons text texts ih =>
    have hfirst : Commented .opening (ofStatements (stmts ++ [.comment text])) bare := by
      rw [ofStatements_concat hne]
      exact .trail text h
    have hothers := ih (by simp) hfirst
    rwa [List.append_assoc] at hothers

/-- One more statement, with comments before it. -/
theorem Commented.appendStatement (texts : List String) {stmts bare : List Expr} {e e' : Expr}
    (hempty : stmts = [] ↔ bare = [])
    (h : Commented .block (ofStatements stmts) (ofStatements bare))
    (he : Commented .single e e') :
    Commented .block (ofStatements (stmts ++ texts.map .comment ++ [e]))
      (ofStatements (bare ++ [e'])) := by
  by_cases hnil : stmts = []
  · rw [hnil, hempty.mp hnil, List.nil_append, List.nil_append]
    by_cases htexts : texts = []
    · rw [htexts]
      exact .one he
    · rw [ofStatements_concat (by simpa using htexts)]
      exact .lead (onlyComments_ofStatements htexts) he
  · rw [ofStatements_concat (by simp [hnil]), ofStatements_concat (mt hempty.mpr hnil)]
    exact .seq (appendComments texts hnil (.all h)) he

/-! ## Section 4: Steps that succeed alike -/

namespace Lowering

variable {α β : Type}

/-- Two steps succeed from the same names, with the same results and the same
    names given out after them.  They may fail in different ways. -/
def SameRuns (x y : Lowering α) : Prop :=
  ∀ names a names', x.runFrom names = (.ok a, names') ↔ y.runFrom names = (.ok a, names')

namespace SameRuns

variable {x y : Lowering α} {f g : α → Lowering β} {e e' : Expr}

theorem refl (x : Lowering α) : SameRuns x x := fun _ _ _ => Iff.rfl

theorem bind (hx : SameRuns x y) (hf : ∀ a, SameRuns (f a) (g a)) :
    SameRuns (x >>= f) (y >>= g) := by
  intro names b names'
  simp only [runFrom_bind_eq_ok, hx _ _ _, hf _ _ _ _]

/-- Which part has no value is in the error only. -/
theorem needValue (role role' : Role) (e e' : Expr) (fragment : Fragment) :
    SameRuns (needValue role e fragment) (needValue role' e' fragment) := by
  intro names v names'
  rw [runFrom_needValue_eq_ok, runFrom_needValue_eq_ok]

/-- A part that has to have a value, and what comes after it. -/
theorem bindValue (he : SameRuns (lower e) (lower e')) {role : Role} {k k' : Valued → Lowering β}
    (hk : ∀ v, SameRuns (k v) (k' v)) :
    SameRuns (lower e >>= fun fragment => Lowering.needValue role e fragment >>= k)
      (lower e' >>= fun fragment => Lowering.needValue role e' fragment >>= k') :=
  he.bind fun fragment => (needValue role role e e' fragment).bind hk

theorem lowerArgs {args args' : List Expr}
    (hargs : List.Forall₂ (fun arg arg' => SameRuns (lower arg) (lower arg')) args args')
    (name : String) (position : Nat) :
    SameRuns (lowerArgs name position args) (lowerArgs name position args') := by
  induction hargs generalizing position with
  | nil => exact .refl _
  | cons harg _ ih => exact harg.bindValue fun _ => (ih (position + 1)).bind fun _ => .refl _

theorem lowerArms {arms arms' : List (Expr × Expr)}
    (harms : List.Forall₂ (ArmAlike (fun e e' => SameRuns (lower e) (lower e'))
      (fun e e' => SameRuns (lower e) (lower e'))) arms arms') :
    SameRuns (lowerArms arms) (lowerArms arms') := by
  induction harms with
  | nil => exact .refl _
  | cons harm _ ih =>
    cases harm with
    | mk hpattern hbody =>
      exact hpattern.bindValue fun _ => hbody.bindValue fun _ => ih.bind fun _ => .refl _

end SameRuns

end Lowering

/-! ## Section 5: Comments have no code -/

open Lowering

/-- The code of a tree, whatever its value is. -/
def lowerCode (e : Expr) : Lowering (List Instruction) := do
  return (← lower e).code

theorem lower_seq (rest last : Expr) :
    lower (.seq rest last) =
      lowerCode rest >>= fun code => lower last >>= fun f => pure ⟨f.value, code ++ f.code⟩ := by
  simp [lower, lowerCode]

theorem lowerCode_seq_comment (rest : Expr) (text : String) :
    lowerCode (.seq rest (.comment text)) = lowerCode rest := by
  simp [lower, lowerCode, Fragment.empty]

theorem OnlyComments.runFrom_lower {e : Expr} (h : OnlyComments e) (names : Names) :
    (lower e).runFrom names = (.ok .empty, names) := by
  induction h with
  | one text => rfl
  | more text _ ih =>
    rw [lower, runFrom_bind, ih]
    rfl

theorem OnlyComments.runFrom_lower_seq {rest : Expr} (h : OnlyComments rest) (last : Expr)
    (names : Names) : (lower (.seq rest last)).runFrom names = (lower last).runFrom names := by
  rw [lower, runFrom_bind, h.runFrom_lower]
  -- the code of the last statement with nothing before it
  show (lower last >>= fun f =>
    (pure ⟨f.value, [] ++ f.code⟩ : Lowering Fragment)).runFrom names = _
  simp

/-- The codes of two trees agree as far as the code around them can see: the
    value of statements that others follow is dropped. -/
def CodesAgree : Scope → Expr → Expr → Prop
  | .opening, e, e' => SameRuns (lowerCode e) (lowerCode e')
  | _, e, e' => SameRuns (lower e) (lower e')

namespace Commented

variable {e e' : Expr}

/-- The codes of the parts of a tree agree with those of their bare forms. -/
def PartsAgree (e : Expr) : Prop :=
  ∀ part ∈ e.parts, ∀ {scope bare}, Commented scope part.2 bare → CodesAgree scope part.2 bare

/-- A relation on lists may be replaced by one that follows from it on the
    members of the first list. -/
theorem forall₂_imp {α : Type} {R S : α → α → Prop} {l l' : List α} (h : List.Forall₂ R l l')
    (himp : ∀ a ∈ l, ∀ b, R a b → S a b) : List.Forall₂ S l l' := by
  induction h with
  | nil => exact .nil
  | cons hfirst _ ih =>
    obtain ⟨himpFirst, himpOthers⟩ := List.forall_mem_cons.mp himp
    exact .cons (himpFirst _ hfirst) (ih himpOthers)

theorem PartsAgree.args {name : String} {args args' : List Expr}
    (ih : PartsAgree (.call name args)) (hargs : List.Forall₂ (Commented .single) args args') :
    List.Forall₂ (fun arg arg' => SameRuns (lower arg) (lower arg')) args args' := by
  apply forall₂_imp hargs
  intro arg harg arg' h
  obtain ⟨role?, hpart⟩ := Expr.exists_part_of_arg harg
  exact ih _ hpart h

theorem PartsAgree.arms {subject other : Expr} {arms arms' : List (Expr × Expr)}
    (ih : PartsAgree (.select subject arms other))
    (harms : List.Forall₂ (ArmAlike (Commented .single) (Commented .block)) arms arms') :
    List.Forall₂ (ArmAlike (fun e e' => SameRuns (lower e) (lower e'))
      (fun e e' => SameRuns (lower e) (lower e'))) arms arms' := by
  apply forall₂_imp harms
  intro arm harm arm' h
  obtain ⟨hpatternPart, hbodyPart⟩ := Expr.parts_of_arm subject other harm
  cases h with
  | mk hpattern hbody => exact .mk (ih _ hpatternPart hpattern) (ih _ hbodyPart hbody)

theorem sameRuns_single (ih : PartsAgree e) (h : Commented .single e e') :
    SameRuns (lower e) (lower e') := by
  cases h with
  | same => exact .refl _
  -- the else part is the only one here that need not have a value
  | branch hcond hyes hno =>
    simp only [PartsAgree, Expr.parts, List.forall_mem_cons] at ih
    obtain ⟨ihCond, ihYes, ihNo, _⟩ := ih
    exact (ihCond hcond).bindValue fun _ => (ihYes hyes).bindValue fun _ => (ihNo hno).bind fun _ =>
      .refl _
  | loop hcond hbody =>
    simp only [PartsAgree, Expr.parts, List.forall_mem_cons] at ih
    obtain ⟨ihCond, ihBody, _⟩ := ih
    exact (ihCond hcond).bindValue fun _ => (ihBody hbody).bind fun _ => .refl _
  | select hsubject harms hother =>
    have hsubject := ih _ List.mem_cons_self hsubject
    have hother := ih (none, _) (by simp [Expr.parts]) hother
    exact hsubject.bindValue fun _ => (SameRuns.lowerArms (ih.arms harms)).bind fun _ =>
      hother.bind fun _ => .refl _
  | store cell haddress hvalue =>
    simp only [PartsAgree, Expr.parts, List.forall_mem_cons] at ih
    obtain ⟨ihAddress, ihValue, _⟩ := ih
    exact (ihAddress haddress).bindValue fun _ => (ihValue hvalue).bindValue fun _ => .refl _
  | binary op hleft hright =>
    simp only [PartsAgree, Expr.parts, List.forall_mem_cons] at ih
    obtain ⟨ihLeft, ihRight, _⟩ := ih
    exact (ihLeft hleft).bindValue fun _ => (ihRight hright).bindValue fun _ => .refl _
  -- what is assigned to a built-in need not have a value either
  | assignBuiltin name hvalue => exact (ih _ List.mem_cons_self hvalue).bind fun _ => .refl _
  | assign _ hvalue | load _ hvalue | control _ _ hvalue | unary _ hvalue =>
    exact SameRuns.bindValue (ih _ List.mem_cons_self hvalue) fun _ => .refl _
  | call name hargs => exact (SameRuns.lowerArgs (ih.args hargs) name 1).bind fun _ => .refl _

theorem sameRuns_block (ih : PartsAgree e) (h : Commented .block e e') :
    SameRuns (lower e) (lower e') := by
  cases h with
  | one h => exact sameRuns_single ih h
  | lead hrest hlast =>
    simp only [PartsAgree, Expr.parts, List.forall_mem_cons] at ih
    intro names f names'
    rw [hrest.runFrom_lower_seq]
    exact ih.2.1 hlast names f names'
  | seq hrest hlast =>
    simp only [PartsAgree, Expr.parts, List.forall_mem_cons] at ih
    obtain ⟨ihRest, ihLast, _⟩ := ih
    rw [lower_seq, lower_seq]
    exact (ihRest hrest).bind fun _ => (ihLast hlast).bind fun _ => .refl _

theorem sameRuns_opening (ih : PartsAgree e) (h : Commented .opening e e') :
    SameRuns (lowerCode e) (lowerCode e') := by
  cases h with
  | all h => exact (sameRuns_block ih h).bind fun _ => .refl _
  | trail text hrest =>
    rw [lowerCode_seq_comment]
    exact ih _ List.mem_cons_self hrest

/-- A tree and its bare form have codes that agree. -/
theorem codesAgree {scope : Scope} (h : Commented scope e e') : CodesAgree scope e e' := by
  induction e using Expr.parts_induction generalizing scope e' with
  | step e ih =>
    have ih : PartsAgree e := fun part hpart => ih part hpart
    cases scope with
    | single => exact sameRuns_single ih h
    | block => exact sameRuns_block ih h
    | opening => exact sameRuns_opening ih h

end Commented

theorem Lowering.SameRuns.toOption_eq {α : Type} {x y : Lowering α} (h : SameRuns x y)
    (names : Names) : (x.runFrom names).1.toOption = (y.runFrom names).1.toOption := by
  rcases hx : x.runFrom names with ⟨error | a, names'⟩
  · rcases hy : y.runFrom names with ⟨error' | a, names''⟩
    · rfl
    · have hok := (h names a names'').mpr hy
      rw [hx] at hok
      cases hok
  · rw [(h names a names').mp hx]

/-- Comments do not change the program that is generated, nor whether there is
    one. -/
theorem Commented.toOption_generate {e e' : Expr} (h : Commented .block e e') :
    (generate e).toOption = (generate e').toOption := by
  have hruns : SameRuns (lower e) (lower e') := h.codesAgree
  have hmap : ∀ result : Except LoweringError Fragment,
      (result.map fun f => f.code ++ [.end_]).toOption =
        result.toOption.map fun f => f.code ++ [.end_] := by
    intro result
    cases result <;> rfl
  unfold generate
  rw [hmap, hmap, hruns.toOption_eq]

end Mlog
