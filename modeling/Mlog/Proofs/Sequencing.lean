import Mlog.Proofs.Lowering

/-! # Sequencing is associative

    How the statements of a program are bracketed into sequences shows neither
    in the code nor in the text of a tree.  Two trees are equal up to bracketing
    (`Rebracketed`) if the one comes from the other by putting the brackets of
    sequences elsewhere, any number of times and anywhere inside; the parts that
    are no sequences keep their order.

    * `lower_eq_lowerEach`: the code of a tree is that of its leaves, lowered one
      by one.  It does not depend on the brackets.  The statements of a tree that
      was folded from the left can be lowered and shown one by one too
      (`lower_eq_lowerEach_statements`, `text_eq_statements`).
    * `Lowering.SameAnswer`: two steps give the same result or fail with the same
      message, and leave the same names.  What a part has no value for is told by
      the text of the part, so both facts go through the rules together.
    * `rebracketed_same`: the text and the answer of lowering are the same for
      trees that are equal up to bracketing. -/

namespace Mlog

/-! ## Section 1: Bracketing -/

namespace Expr

/-- The parts of a sequence that are no sequences, in the order of evaluation. -/
def leaves : Expr → List Expr
  | seq rest last => rest.leaves ++ last.leaves
  | e => [e]

/-- The trees are equal up to the bracketing of sequences.  The first rule puts
    the brackets of one sequence elsewhere, the others do so further inside. -/
inductive Rebracketed : Expr → Expr → Prop
  | bracket {e e'} : e.leaves = e'.leaves → Rebracketed e e'
  | trans {e e' e''} : Rebracketed e e' → Rebracketed e' e'' → Rebracketed e e''
  | seq {rest rest' last last'} : Rebracketed rest rest' → Rebracketed last last' →
      Rebracketed (.seq rest last) (.seq rest' last')
  | branch {cond cond' yes yes' no no'} : Rebracketed cond cond' → Rebracketed yes yes' →
      Rebracketed no no' → Rebracketed (.branch cond yes no) (.branch cond' yes' no')
  | loop {cond cond' body body'} : Rebracketed cond cond' → Rebracketed body body' →
      Rebracketed (.loop cond body) (.loop cond' body')
  | select {subject subject' other other'} (arms) : Rebracketed subject subject' →
      Rebracketed other other' →
      Rebracketed (.select subject arms other) (.select subject' arms other')
  /-- One arm of a `case`. -/
  | arm {pattern pattern' body body'} (subject before after other) :
      Rebracketed pattern pattern' → Rebracketed body body' →
      Rebracketed (.select subject (before ++ (pattern, body) :: after) other)
        (.select subject (before ++ (pattern', body') :: after) other)
  | assign {value value'} (name) : Rebracketed value value' →
      Rebracketed (.assign name value) (.assign name value')
  | assignBuiltin {value value'} (name) : Rebracketed value value' →
      Rebracketed (.assignBuiltin name value) (.assignBuiltin name value')
  | load {address address'} (cell) : Rebracketed address address' →
      Rebracketed (.load cell address) (.load cell address')
  | store {address address' value value'} (cell) : Rebracketed address address' →
      Rebracketed value value' →
      Rebracketed (.store cell address value) (.store cell address' value')
  | control {value value'} (property target) : Rebracketed value value' →
      Rebracketed (.control property target value) (.control property target value')
  | unary {operand operand'} (op) : Rebracketed operand operand' →
      Rebracketed (.unary op operand) (.unary op operand')
  | binary {left left' right right'} (op) : Rebracketed left left' → Rebracketed right right' →
      Rebracketed (.binary op left right) (.binary op left' right')
  /-- One argument of a call. -/
  | arg {arg arg'} (name before after) : Rebracketed arg arg' →
      Rebracketed (.call name (before ++ arg :: after)) (.call name (before ++ arg' :: after))

namespace Rebracketed

theorem refl (e : Expr) : Rebracketed e e := .bracket rfl

theorem assoc (a b c : Expr) : Rebracketed (.seq (.seq a b) c) (.seq a (.seq b c)) := by
  apply bracket
  simp [leaves]

theorem symm {e e' : Expr} (h : Rebracketed e e') : Rebracketed e' e := by
  induction h with
  | bracket h => exact .bracket h.symm
  | trans _ _ ih ih' => exact .trans ih' ih
  | seq _ _ ih ih' => exact .seq ih ih'
  | branch _ _ _ ihCond ihYes ihNo => exact .branch ihCond ihYes ihNo
  | loop _ _ ih ih' => exact .loop ih ih'
  | select arms _ _ ih ih' => exact .select arms ih ih'
  | arm subject before after other _ _ ih ih' => exact .arm subject before after other ih ih'
  | assign name _ ih => exact .assign name ih
  | assignBuiltin name _ ih => exact .assignBuiltin name ih
  | load cell _ ih => exact .load cell ih
  | store cell _ _ ih ih' => exact .store cell ih ih'
  | control property target _ ih => exact .control property target ih
  | unary op _ ih => exact .unary op ih
  | binary op _ _ ih ih' => exact .binary op ih ih'
  | arg name before after _ ih => exact .arg name before after ih

theorem equivalence : Equivalence Rebracketed := ⟨refl, symm, trans⟩

end Rebracketed

theorem leaves_ne_nil (e : Expr) : e.leaves ≠ [] := by
  induction e with
  | seq rest last hrest _ => simp [leaves, hrest]
  | _ => simp [leaves]

/-- A sequence has at least two leaves, so what has one leaf is that leaf. -/
theorem eq_nop_of_leaves {e : Expr} (h : e.leaves = [nop]) : e = nop := by
  cases e with
  | seq rest last =>
    have hlength := congrArg List.length h
    have hrest := List.length_pos_iff.mpr rest.leaves_ne_nil
    have hlast := List.length_pos_iff.mpr last.leaves_ne_nil
    simp only [leaves, List.length_append, List.length_singleton] at hlength
    omega
  | nop => rfl
  | _ => simp [leaves] at h

/-! ## Section 2: Leaves one by one -/

/-- The text of a tree is that of its leaves, whatever the brackets are. -/
theorem text_eq_leaves (e : Expr) : e.text = "; ".intercalate (e.leaves.map text) := by
  induction e with
  | seq rest last hrest hlast =>
    rw [leaves, List.map_append, String.intercalate_append_of_ne_nil
      (by simp [leaves_ne_nil]) (by simp [leaves_ne_nil]), ← hrest, ← hlast, text]
  | _ => simp [leaves]

/-- A tree that was folded from the left is shown statement by statement. -/
theorem text_eq_statements (e : Expr) : e.text = "; ".intercalate (e.statements.map text) := by
  induction e with
  | seq rest last hrest _ =>
    have hne : rest.statements ≠ [] := by cases rest <;> simp [statements]
    rw [statements, List.map_append, String.intercalate_append_of_ne_nil (by simp [hne]) (by simp),
      ← hrest, List.map_singleton, String.intercalate_singleton, text]
  | _ => simp [statements]

theorem text_eq_of_leaves {e e' : Expr} (h : e.leaves = e'.leaves) : e.text = e'.text := by
  rw [text_eq_leaves, h, ← text_eq_leaves]

end Expr

/-- Lowers one more tree, and puts its code after the code so far. -/
def lowerNext (before : Fragment) (e : Expr) : Lowering Fragment := do
  let next ← lower e
  return ⟨next.value, before.code ++ next.code⟩

/-- Lowers trees one by one; the value is that of the last one. -/
def lowerEach (es : List Expr) : Lowering Fragment := es.foldlM lowerNext .empty

theorem lowerNext_seq (before : Fragment) (rest last : Expr) :
    lowerNext before (.seq rest last) = lowerNext before rest >>= (lowerNext · last) := by
  simp only [lowerNext, lower, bind_assoc, pure_bind, List.append_assoc]

theorem lowerNext_empty (e : Expr) : lowerNext .empty e = lower e := by
  simp [lowerNext, Fragment.empty]

theorem foldlM_lowerNext_leaves (e : Expr) (before : Fragment) :
    e.leaves.foldlM lowerNext before = lowerNext before e := by
  induction e generalizing before with
  | seq rest last hrest hlast =>
    rw [Expr.leaves, List.foldlM_append, hrest, lowerNext_seq]
    simp only [hlast]
  | _ => simp [Expr.leaves]

theorem foldlM_lowerNext_statements (e : Expr) (before : Fragment) :
    e.statements.foldlM lowerNext before = lowerNext before e := by
  induction e generalizing before with
  | seq rest last hrest _ =>
    rw [Expr.statements, List.foldlM_append, hrest, lowerNext_seq]
    simp only [List.foldlM_cons, List.foldlM_nil, bind_pure]
  | _ => simp [Expr.statements]

/-- The code of a tree is that of its leaves, whatever the brackets are. -/
theorem lower_eq_lowerEach (e : Expr) : lower e = lowerEach e.leaves := by
  unfold lowerEach
  rw [foldlM_lowerNext_leaves, lowerNext_empty]

/-- A tree that was folded from the left is lowered statement by statement. -/
theorem lower_eq_lowerEach_statements (e : Expr) : lower e = lowerEach e.statements := by
  unfold lowerEach
  rw [foldlM_lowerNext_statements, lowerNext_empty]

/-! ## Section 3: Steps with the same answer -/

namespace Lowering

variable {α β : Type}

/-- Two steps give the same result, or fail with the same message; and they
    leave the same names. -/
def SameAnswer (x y : Lowering α) : Prop :=
  ∀ names, (x.runFrom names).1.mapError LoweringError.message =
      (y.runFrom names).1.mapError LoweringError.message ∧
    (x.runFrom names).2 = (y.runFrom names).2

namespace SameAnswer

variable {x y z : Lowering α} {f g : α → Lowering β} {e e' : Expr}

theorem refl (x : Lowering α) : SameAnswer x x := fun _ => ⟨rfl, rfl⟩

theorem trans (h : SameAnswer x y) (h' : SameAnswer y z) : SameAnswer x z :=
  fun names => ⟨(h names).1.trans (h' names).1, (h names).2.trans (h' names).2⟩

theorem bind (hx : SameAnswer x y) (hf : ∀ a, SameAnswer (f a) (g a)) :
    SameAnswer (x >>= f) (y >>= g) := by
  intro names
  obtain ⟨hanswer, hnames⟩ := hx names
  rw [runFrom_bind, runFrom_bind]
  rcases hxrun : x.runFrom names with ⟨error | a, names₁⟩ <;>
    rcases hyrun : y.runFrom names with ⟨error' | b, names₂⟩ <;>
    rw [hxrun, hyrun] at hanswer hnames
  · -- both fail, with the same message
    exact ⟨congrArg Except.error (Except.error.inj hanswer), hnames⟩
  · cases hanswer
  · cases hanswer
  · -- both go on with the same result, from the same names
    obtain rfl : a = b := Except.ok.inj hanswer
    obtain rfl : names₁ = names₂ := hnames
    exact hf a names₁

/-- What is missing is told by the text of the part. -/
theorem needValue (role : Role) (htext : e.text = e'.text) (fragment : Fragment) :
    SameAnswer (needValue role e fragment) (needValue role e' fragment) := by
  intro names
  obtain ⟨_ | value, code⟩ := fragment
  · have hmessage := congrArg (fun shown => "expected " ++ role.description ++
      " to produce a value, found none in `" ++ shown ++ "`") htext
    exact ⟨congrArg Except.error hmessage, rfl⟩
  · exact ⟨rfl, rfl⟩

/-- A part that has to have a value, and what comes after it. -/
theorem bindValue (he : SameAnswer (lower e) (lower e')) (htext : e.text = e'.text) {role : Role}
    {k k' : Valued → Lowering β} (hk : ∀ v, SameAnswer (k v) (k' v)) :
    SameAnswer (lower e >>= fun fragment => Lowering.needValue role e fragment >>= k)
      (lower e' >>= fun fragment => Lowering.needValue role e' fragment >>= k') :=
  he.bind fun fragment => (needValue role htext fragment).bind hk

/-- One argument among others. -/
theorem lowerArgs (he : SameAnswer (lower e) (lower e')) (htext : e.text = e'.text)
    (name : String) (before after : List Expr) (position : Nat) :
    SameAnswer (lowerArgs name position (before ++ e :: after))
      (lowerArgs name position (before ++ e' :: after)) := by
  induction before generalizing position with
  | nil => exact he.bindValue htext fun _ => .refl _
  | cons arg before ih =>
    exact (refl (lower arg)).bindValue rfl fun _ => (ih (position + 1)).bind fun _ => .refl _

/-- One arm among others. -/
theorem lowerArms {body body' : Expr} (he : SameAnswer (lower e) (lower e'))
    (htext : e.text = e'.text) (hbody : SameAnswer (lower body) (lower body'))
    (hbodyText : body.text = body'.text) (before after : List (Expr × Expr)) :
    SameAnswer (lowerArms (before ++ (e, body) :: after))
      (lowerArms (before ++ (e', body') :: after)) := by
  induction before with
  | nil => exact he.bindValue htext fun _ => hbody.bindValue hbodyText fun _ => .refl _
  | cons arm before ih =>
    exact (refl (lower arm.1)).bindValue rfl fun _ =>
      (refl (lower arm.2)).bindValue rfl fun _ => ih.bind fun _ => .refl _

end SameAnswer

end Lowering

/-! ## Section 4: Trees that are equal up to bracketing -/

namespace Expr

/-- One argument among others. -/
theorem argsText_congr {e e' : Expr} (h : e.text = e'.text) (before after : List Expr) :
    argsText (before ++ e :: after) = argsText (before ++ e' :: after) := by
  have hcons : ∀ (arg : Expr) {args : List Expr}, args ≠ [] →
      argsText (arg :: args) = arg.text ++ ", " ++ argsText args := by
    intro arg args hne
    cases args with
    | nil => exact absurd rfl hne
    | cons => rfl
  induction before with
  | nil =>
    cases after with
    | nil => exact h
    | cons => rw [List.nil_append, List.nil_append, hcons e (by simp), hcons e' (by simp), h]
  | cons arg before ih =>
    rw [List.cons_append, List.cons_append, hcons arg (by simp), hcons arg (by simp), ih]

/-- One arm among others. -/
theorem armsText_congr {pattern pattern' body body' : Expr} (h : pattern.text = pattern'.text)
    (hbody : body.text = body'.text) (before after : List (Expr × Expr)) :
    armsText (before ++ (pattern, body) :: after) =
      armsText (before ++ (pattern', body') :: after) := by
  induction before with
  | nil => simp only [List.nil_append, armsText, h, hbody]
  | cons arm before ih => simp only [List.cons_append, armsText, ih]

/-- An else part shows whether it is `nop`, and its text if it is not. -/
theorem elseText_congr {e e' : Expr} (hnop : e = nop ↔ e' = nop) (h : e.text = e'.text) :
    elseText e e.text = elseText e' e'.text := by
  have helse : ∀ {e : Expr}, e ≠ nop → ∀ shown, elseText e shown = " else " ++ braced shown := by
    intro e hne shown
    cases e with
    | nop => exact absurd rfl hne
    | _ => rfl
  by_cases he : e = nop
  · rw [he, hnop.mp he]
  · rw [helse he, helse (mt hnop.mpr he), h]

/-- What trees that are equal up to bracketing have in common: the text, whether
    there is anything at all, and the answer of lowering. -/
structure Same (e e' : Expr) : Prop where
  text : e.text = e'.text
  nop : e = .nop ↔ e' = .nop
  answer : Lowering.SameAnswer (lower e) (lower e')

theorem same_of_leaves {e e' : Expr} (h : e.leaves = e'.leaves) : Same e e' := by
  refine ⟨text_eq_of_leaves h, ?_, ?_⟩
  · constructor
    · intro he
      rw [he] at h
      exact eq_nop_of_leaves h.symm
    · intro he
      rw [he] at h
      exact eq_nop_of_leaves h
  · rw [lower_eq_lowerEach e, h, ← lower_eq_lowerEach e']
    exact .refl _

/-- Lowering and printing cannot tell trees that are equal up to bracketing
    apart. -/
theorem Rebracketed.same {e e' : Expr} (h : e.Rebracketed e') : Same e e' := by
  -- the answer of a node needs the texts of its parts, and its text needs to know
  -- which else part is `nop`, so the three go through the induction together
  induction h with
  | bracket h => exact same_of_leaves h
  | trans _ _ ih ih' =>
    exact ⟨ih.text.trans ih'.text, ih.nop.trans ih'.nop, ih.answer.trans ih'.answer⟩
  | seq _ _ ihRest ihLast =>
    refine ⟨by simp only [Expr.text, ihRest.text, ihLast.text], by simp, ?_⟩
    exact ihRest.answer.bind fun _ => ihLast.answer.bind fun _ => .refl _
  | branch _ _ _ ihCond ihYes ihNo =>
    refine ⟨?_, by simp, ?_⟩
    · simp only [Expr.text, ihCond.text, ihYes.text, elseText_congr ihNo.nop ihNo.text]
    · exact ihCond.answer.bindValue ihCond.text fun _ =>
        ihYes.answer.bindValue ihYes.text fun _ => ihNo.answer.bind fun _ => .refl _
  | loop _ _ ihCond ihBody =>
    refine ⟨by simp only [Expr.text, ihCond.text, ihBody.text], by simp, ?_⟩
    exact ihCond.answer.bindValue ihCond.text fun _ => ihBody.answer.bind fun _ => .refl _
  | select arms _ _ ihSubject ihOther =>
    refine ⟨?_, by simp, ?_⟩
    · simp only [Expr.text, ihSubject.text, elseText_congr ihOther.nop ihOther.text]
    · exact ihSubject.answer.bindValue ihSubject.text fun _ =>
        (Lowering.SameAnswer.refl _).bind fun _ => ihOther.answer.bind fun _ => .refl _
  | arm subject before after other _ _ ihPattern ihBody =>
    refine ⟨?_, by simp, ?_⟩
    · simp only [Expr.text, armsText_congr ihPattern.text ihBody.text]
    · have harms := ihPattern.answer.lowerArms ihPattern.text ihBody.answer ihBody.text before after
      exact (Lowering.SameAnswer.refl (lower subject)).bindValue rfl fun _ =>
        harms.bind fun _ => .refl _
  | assign name _ ih =>
    refine ⟨by simp only [Expr.text, ih.text], by simp, ?_⟩
    exact ih.answer.bindValue ih.text fun _ => .refl _
  | assignBuiltin name _ ih =>
    refine ⟨by simp only [Expr.text, ih.text], by simp, ?_⟩
    exact ih.answer.bind fun _ => .refl _
  | load cell _ ih =>
    refine ⟨by simp only [Expr.text, ih.text], by simp, ?_⟩
    exact ih.answer.bindValue ih.text fun _ => .refl _
  | store cell _ _ ihAddress ihValue =>
    refine ⟨by simp only [Expr.text, ihAddress.text, ihValue.text], by simp, ?_⟩
    exact ihAddress.answer.bindValue ihAddress.text fun _ =>
      ihValue.answer.bindValue ihValue.text fun _ => .refl _
  | control property target _ ih =>
    refine ⟨by simp only [Expr.text, ih.text], by simp, ?_⟩
    exact ih.answer.bindValue ih.text fun _ => .refl _
  | unary op _ ih =>
    refine ⟨by simp only [Expr.text, ih.text], by simp, ?_⟩
    exact ih.answer.bindValue ih.text fun _ => .refl _
  | binary op _ _ ihLeft ihRight =>
    refine ⟨by simp only [Expr.text, ihLeft.text, ihRight.text], by simp, ?_⟩
    exact ihLeft.answer.bindValue ihLeft.text fun _ =>
      ihRight.answer.bindValue ihRight.text fun _ => .refl _
  | arg name before after _ ih =>
    refine ⟨by simp only [Expr.text, argsText_congr ih.text], by simp, ?_⟩
    exact (ih.answer.lowerArgs ih.text name before after 1).bind fun _ => .refl _

end Expr

/-- Trees that are equal up to bracketing have the same text.  From any names
    they are lowered with the same result or fail with the same message, and leave
    the same names.  So do the leaves of the one, lowered one by one, and the other
    one, however it is bracketed. -/
theorem rebracketed_same {e e' : Expr} (h : e.Rebracketed e') :
    e.text = e'.text ∧ Lowering.SameAnswer (lower e) (lower e') ∧
      Lowering.SameAnswer (lowerEach e.leaves) (lower e') := by
  have hsame := h.same
  refine ⟨hsame.text, hsame.answer, ?_⟩
  rw [← lower_eq_lowerEach]
  exact hsame.answer

/-- Three statements in a branch, the first two of them bracketed together. -/
def groupedLeft : Expr :=
  .branch (.var "ready")
    (.seq (.seq (.assign "x" (.num "1")) (.call "print" [.var "x"])) (.var "x")) .nop

/-- The same with the last two bracketed together. -/
def groupedRight : Expr :=
  .branch (.var "ready")
    (.seq (.assign "x" (.num "1")) (.seq (.call "print" [.var "x"]) (.var "x"))) .nop

theorem grouped_same :
    groupedLeft.Rebracketed groupedRight ∧ groupedLeft.text = groupedRight.text ∧
      Lowering.SameAnswer (lower groupedLeft) (lower groupedRight) ∧
      Lowering.SameAnswer (lowerEach groupedLeft.leaves) (lower groupedRight) := by
  have h : groupedLeft.Rebracketed groupedRight := .branch (.refl _) (.assoc _ _ _) (.refl _)
  exact ⟨h, rebracketed_same h⟩

end Mlog
