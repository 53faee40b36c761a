import Mlog.Proofs.Lowering
import Mlog.Proofs.Nodes

/-! # What keeps a tree from being lowered

    A tree can be lowered iff nothing in it is wrong: every part that has to
    have a value has one, every operator is known, and every call is one of a
    built-in function with enough arguments.

    * `Expr.Sound`: nothing is wrong with a node, apart from what may be wrong
      inside its parts.
    * `Expr.violations`: all that is wrong in a tree, in the order in which an
      evaluation meets it.
    * `Lowering.Answers`: a step fails with the first of a list of faults, and
      succeeds if the list is empty.  The names given out before the step have
      no part in it.

    The contract is closed under sequencing (`Answers.bind`: the faults of two
    steps are those of the first, then those of the second), so the answer of
    `lower` follows the recursion of `violations`. -/

namespace Mlog

/-! ## Section 1: What is known -/

/-- The unary operators that can be lowered. -/
def loweredUnary : List String := ["not", "!"]

/-- The binary operators that can be lowered. -/
def loweredBinary : List String :=
  ["+", "-", "*", "/", "**", "==", "!=", "===", "<", "<=", ">", ">=", "||", "or", "&&", "and"]

/-- The built-in functions, each with the number of arguments it needs. -/
def signatures : List (String × Nat) :=
  [("print", 0), ("printflush", 0), ("rand", 1), ("getlink", 1), ("ubind", 1), ("within", 3),
   ("move", 2), ("mine", 2), ("itemDrop", 2), ("itemTake", 3), ("flag", 1), ("approach", 3),
   ("idle", 0), ("pathfind", 0), ("stop", 0), ("boot", 2), ("target", 3), ("targetp", 2),
   ("payDrop", 0), ("payTake", 1), ("build", 5), ("getBlock", 4)]

example : signatures.length = 22 := rfl

theorem unaryOperation?_isSome (op : String) :
    (unaryOperation? op).isSome ↔ op ∈ loweredUnary := by
  unfold unaryOperation? loweredUnary
  split <;> simp_all

theorem binaryOperation?_isSome (op : String) :
    (binaryOperation? op).isSome ↔ op ∈ loweredBinary := by
  unfold binaryOperation? loweredBinary
  split <;> simp_all

/-- The table of the functions is the one that calls are expanded by. -/
theorem signatures_eq : signatures = Intrinsic.all.map fun f => (f.name, f.arity) := rfl

theorem lookup_signatures (name : String) :
    signatures.lookup name = (Intrinsic.ofName? name).map Intrinsic.arity := by
  rw [signatures_eq]
  unfold Intrinsic.ofName?
  induction Intrinsic.all with
  | nil => rfl
  | cons f fs ih =>
    rw [List.map_cons, List.lookup_cons, ih]
    by_cases h : name = f.name
    · simp [h]
    · have hne : (name == f.name) = false := by simpa using h
      simp [hne, Ne.symm h]

/-! ## Section 2: Nodes with nothing wrong -/

namespace Expr

/-- The operator of a node is in its table, and the function that it calls is
    built in and has enough arguments. -/
def Supported : Expr → Prop
  | unary op _ => op ∈ loweredUnary
  | binary op _ _ => op ∈ loweredBinary
  | call name args => ∃ required, signatures.lookup name = some required ∧ required ≤ args.length
  | _ => True

/-- Nothing is wrong with a node, its parts taken as they are. -/
structure Sound (node : Expr) : Prop where
  valued : ∀ role part, (some role, part) ∈ node.parts → part.hasValue = true
  supported : node.Supported

/-! ## Section 3: Violations -/

/-- What is wrong with a node itself, found after its parts were evaluated. -/
def unsupported : Expr → List LoweringError
  | unary op _ => if op ∈ loweredUnary then [] else [.unknownUnary op]
  | binary op _ _ => if op ∈ loweredBinary then [] else [.unknownBinary op]
  | call name args =>
    match signatures.lookup name with
    | none => [.unknownFunction name]
    | some required =>
      if args.length < required then [.missingArguments name required args.length] else []
  | _ => []

/-- What is wrong with a part besides what is wrong inside it: it has no value
    for the role that it has. -/
def missing : Option Role × Expr → List LoweringError
  | (some role, part) => if part.hasValue then [] else [.noValue role part]
  | (none, _) => []

@[simp] theorem missing_none (part : Expr) : missing (none, part) = [] := rfl

/-- All that is wrong in a tree, in the order in which it is met when the tree
    is evaluated: what is wrong inside a part, then that the part lacks a value,
    and after all parts the operator or the call itself. -/
def violations (e : Expr) : List LoweringError :=
  (e.parts.attach.flatMap fun part => part.1.2.violations ++ missing part.1) ++ e.unsupported
termination_by sizeOf e
decreasing_by exact sizeOf_part_lt part.2

/-- What is wrong in parts that are evaluated one after another. -/
def partFaults (parts : List (Option Role × Expr)) : List LoweringError :=
  parts.flatMap fun part => part.2.violations ++ missing part

theorem partFaults_cons (part : Option Role × Expr) (parts : List (Option Role × Expr)) :
    partFaults (part :: parts) = part.2.violations ++ (missing part ++ partFaults parts) := by
  simp [partFaults]

theorem partFaults_append (parts others : List (Option Role × Expr)) :
    partFaults (parts ++ others) = partFaults parts ++ partFaults others := by
  simp [partFaults]

theorem violations_eq (e : Expr) : e.violations = partFaults e.parts ++ e.unsupported := by
  rw [violations, partFaults]
  congr 1
  rw [List.flatMap_subtype (g := fun part => part.2.violations ++ missing part) (fun _ _ => rfl),
    List.unattach_attach]

theorem unsupported_eq_nil_iff (e : Expr) : e.unsupported = [] ↔ e.Supported := by
  cases e with
  | unary op operand =>
    unfold unsupported Supported
    split <;> simp_all
  | binary op left right =>
    unfold unsupported Supported
    split <;> simp_all
  | call name args =>
    unfold unsupported Supported
    cases hlookup : signatures.lookup name with
    | none => simp [hlookup]
    | some required =>
      by_cases h : args.length < required
      · simp [hlookup, h]
      · simp [hlookup, h, Nat.le_of_not_lt h]
  | _ => simp [unsupported, Supported]

theorem missing_eq_nil_iff (role? : Option Role) (part : Expr) :
    missing (role?, part) = [] ↔ ∀ role, role? = some role → part.hasValue = true := by
  cases role? with
  | none => simp [missing]
  | some role => cases h : part.hasValue <;> simp [missing, h]

/-- Nothing is wrong in a tree iff nothing is wrong with any node of it. -/
theorem violations_eq_nil_iff (e : Expr) :
    e.violations = [] ↔ ∀ node : Expr, node.Within e → node.Sound := by
  induction e using parts_induction with
  | step e ih =>
    -- the faults are those inside each part, those of parts without a value, and its own
    rw [violations_eq, List.append_eq_nil_iff, partFaults, List.flatMap_eq_nil_iff,
      unsupported_eq_nil_iff]
    constructor
    · intro h node hnode
      cases hnode with
      | refl =>
        refine ⟨?_, h.2⟩
        intro role part hpart
        have hmissing := (List.append_eq_nil_iff.mp (h.1 _ hpart)).2
        exact (missing_eq_nil_iff _ _).mp hmissing role rfl
      | part hpart hnode =>
        have hinside := (List.append_eq_nil_iff.mp (h.1 _ hpart)).1
        exact (ih _ hpart).mp hinside node hnode
    · intro h
      have hself := h e .refl
      refine ⟨?_, hself.supported⟩
      intro part hpart
      rw [List.append_eq_nil_iff]
      constructor
      · apply (ih part hpart).mpr
        intro node hnode
        exact h node (.part hpart hnode)
      · apply (missing_eq_nil_iff part.1 part.2).mpr
        intro role hrole
        exact hself.valued role part.2 (hrole ▸ hpart)

end Expr

/-! ## Section 4: Answers of lowering steps -/

namespace Lowering

variable {α β : Type}

/-- What a step answers, whatever names have been given out before: it fails
    with the first of the faults, or there is none and it succeeds with a result
    as `Q` says. -/
def Answers (step : Lowering α) (faults : List LoweringError) (Q : α → Prop) : Prop :=
  ∀ names : Names, (faults = [] ∧ ∃ a, (step.runFrom names).1 = .ok a ∧ Q a) ∨
    ∃ fault, faults.head? = some fault ∧ (step.runFrom names).1 = .error fault

namespace Answers

variable {x : Lowering α} {f : α → Lowering β} {faults more : List LoweringError}
  {Q : α → Prop} {R : β → Prop}

theorem pure {a : α} (h : Q a) : Answers (pure a) [] Q := fun _ => .inl ⟨rfl, a, rfl, h⟩

theorem throw (fault : LoweringError) : Answers (throw fault : Lowering α) [fault] Q :=
  fun _ => .inr ⟨fault, rfl, rfl⟩

/-- One step after another: the second one is only reached if the first one has
    no faults. -/
theorem bind (hx : Answers x faults Q) (hf : ∀ a, Q a → Answers (f a) more R) :
    Answers (x >>= f) (faults ++ more) R := by
  intro names
  rw [runFrom_bind]
  rcases hrun : x.runFrom names with ⟨result, names₁⟩
  rcases hx names with ⟨rfl, a, ha, hQ⟩ | ⟨fault, hhead, hfault⟩
  · rw [hrun] at ha
    obtain rfl : result = .ok a := ha
    exact hf a hQ names₁
  · rw [hrun] at hfault
    obtain rfl : result = .error fault := hfault
    exact .inr ⟨fault, by simp [hhead], rfl⟩

/-- A step whose result is only put into another form. -/
theorem bindPure {g : α → β} (hx : Answers x faults Q) (hg : ∀ a, Q a → R (g a)) :
    Answers (x >>= fun a => Pure.pure (g a)) faults R := by
  rw [← List.append_nil faults]
  exact hx.bind fun a ha => .pure (hg a ha)

/-- Giving out names never fails, so it adds no faults. -/
theorem fresh (hx : ∀ names, ∃ a, (x.runFrom names).1 = .ok a)
    (hf : ∀ a, Answers (f a) more R) : Answers (x >>= f) more R := by
  have hfresh : Answers x [] fun _ => True := by
    intro names
    obtain ⟨a, ha⟩ := hx names
    exact .inl ⟨rfl, a, ha, trivial⟩
  exact hfresh.bind fun a _ => hf a

theorem freshTemp {f : String → Lowering β} (hf : ∀ a, Answers (f a) more R) :
    Answers (Lowering.freshTemp >>= f) more R := fresh (fun _ => ⟨_, rfl⟩) hf

theorem freshLabel {f : String → Lowering β} (hf : ∀ a, Answers (f a) more R) :
    Answers (Lowering.freshLabel >>= f) more R := fresh (fun _ => ⟨_, rfl⟩) hf

end Answers

/-- The answer of a tree: it fails with the first thing that is wrong in it, or
    it has code, with a value iff the tree has one. -/
def AnswersTree (e : Expr) : Prop :=
  Answers (lower e) e.violations fun f => f.value.isSome = e.hasValue

namespace AnswersTree

open Mlog.Expr

variable {e : Expr} {parts : List (Option Role × Expr)} {last : List LoweringError} {R : α → Prop}

/-- The faults of a node are those of its parts, then its own. -/
theorem ofParts (h : Answers (lower e) (partFaults e.parts ++ e.unsupported) fun f =>
    f.value.isSome = e.hasValue) : AnswersTree e := by
  unfold AnswersTree
  rw [violations_eq]
  exact h

/-- A part that need not have a value, and what comes after it. -/
theorem bind (he : AnswersTree e) {k : Fragment → Lowering α}
    (hk : ∀ f : Fragment, f.value.isSome = e.hasValue →
      Answers (k f) (partFaults parts ++ last) R) :
    Answers (lower e >>= k) (partFaults ((none, e) :: parts) ++ last) R := by
  rw [partFaults_cons, missing_none, List.nil_append, List.append_assoc]
  exact Answers.bind he hk

/-- A part that has to have a value: what is wrong inside it comes before the
    lack of a value. -/
theorem bindValue (he : AnswersTree e) {role : Role} {k : Valued → Lowering α}
    (hk : ∀ v, Answers (k v) (partFaults parts ++ last) R) :
    Answers (lower e >>= fun f => needValue role e f >>= k)
      (partFaults ((some role, e) :: parts) ++ last) R := by
  rw [partFaults_cons, List.append_assoc, List.append_assoc]
  apply Answers.bind he
  intro f hf
  have hvalue : Answers (needValue role e f) (missing (some role, e)) fun _ => True := by
    obtain ⟨_ | value, code⟩ := f
    · have hnone : e.hasValue = false := hf.symm
      rw [show missing (some role, e) = [.noValue role e] by simp [missing, hnone]]
      exact .throw _
    · have hsome : e.hasValue = true := hf.symm
      rw [show missing (some role, e) = [] by simp [missing, hsome]]
      exact .pure trivial
  exact hvalue.bind fun v _ => hk v

end AnswersTree

/-! ## Section 5: Arguments, arms and operators -/

theorem answers_lowerArgs {args : List Expr} (hargs : ∀ arg ∈ args, AnswersTree arg)
    (name : String) (position : Nat) :
    Answers (lowerArgs name position args)
      (Expr.partFaults
        ((args.zipIdx position).map fun arg => (some (.argument arg.2 name), arg.1)))
      fun vs => vs.length = args.length := by
  induction args generalizing position with
  | nil => exact .pure rfl
  | cons arg args ih =>
    obtain ⟨harg, hargs⟩ := List.forall_mem_cons.mp hargs
    rw [List.zipIdx_cons, List.map_cons, ← List.append_nil (Expr.partFaults _)]
    apply harg.bindValue
    intro v
    rw [List.append_nil]
    apply (ih hargs (position + 1)).bindPure
    intro vs hvs
    rw [List.length_cons, hvs, List.length_cons]

theorem answers_lowerArms {arms : List (Expr × Expr)}
    (harms : ∀ arm ∈ arms, AnswersTree arm.1 ∧ AnswersTree arm.2) :
    Answers (lowerArms arms)
      (Expr.partFaults
        (arms.flatMap fun arm => [(some .pattern, arm.1), (some .armBody, arm.2)]))
      fun _ => True := by
  induction arms with
  | nil => exact .pure trivial
  | cons arm arms ih =>
    obtain ⟨⟨hpattern, hbody⟩, harms⟩ := List.forall_mem_cons.mp harms
    rw [List.flatMap_cons, ← List.append_nil (Expr.partFaults _)]
    apply hpattern.bindValue
    intro p
    apply hbody.bindValue
    intro b
    rw [List.append_nil]
    exact (ih harms).bindPure fun _ _ => trivial

/-- What is wrong with a call itself comes after its arguments. -/
theorem answers_expandCall (name : String) {args : List Expr} {operands : List String}
    (hlength : operands.length = args.length) :
    Answers (expandCall name operands) (Expr.call name args).unsupported fun _ => True := by
  simp only [expandCall, Expr.unsupported, lookup_signatures, ← hlength]
  cases Intrinsic.ofName? name with
  | none => exact .throw _
  | some f =>
    by_cases h : operands.length < f.arity
    · simp only [h, Option.map_some, if_true]
      exact .throw _
    · simp only [h, Option.map_some, if_false]
      intro names
      exact .inl ⟨rfl, _, by rw [Intrinsic.runFrom_expand], trivial⟩

/-- An operator is looked up after its operands have been lowered. -/
theorem answers_operation {operation? : Option String} {fault : LoweringError} {known : Prop}
    [Decidable known] (h : operation?.isSome ↔ known) {k : String → Lowering α} {Q : α → Prop}
    (hk : ∀ operation, Answers (k operation) [] Q) :
    Answers (match operation? with
      | none => throw fault
      | some operation => k operation) (if known then [] else [fault]) Q := by
  cases operation? with
  | none =>
    rw [if_neg (by simp [← h])]
    exact .throw fault
  | some operation =>
    rw [if_pos (by simp [← h])]
    exact hk operation

/-! ## Section 6: Trees -/

/-- Every tree fails with the first thing that is wrong in it, or has code. -/
theorem answersTree (e : Expr) : AnswersTree e := by
  induction e with
  | seq rest last hrest hlast =>
    apply AnswersTree.ofParts
    exact hrest.bind fun _ _ => hlast.bind fun _ hvalue => .pure hvalue
  | branch cond yes no hcond hyes hno =>
    apply AnswersTree.ofParts
    exact hcond.bindValue fun _ => hyes.bindValue fun _ => hno.bind fun _ _ =>
      .freshTemp fun _ => .freshLabel fun _ => .freshLabel fun _ => .pure rfl
  | loop cond body hcond hbody =>
    apply AnswersTree.ofParts
    exact hcond.bindValue fun _ => hbody.bind fun _ hvalue =>
      .freshLabel fun _ => .freshLabel fun _ => .pure hvalue
  | select subject arms otherwise hsubject harms hotherwise =>
    apply AnswersTree.ofParts
    apply hsubject.bindValue
    intro s
    rw [Expr.partFaults_append, List.append_assoc]
    apply (answers_lowerArms harms).bind
    intro as _
    exact hotherwise.bind fun _ _ => .freshTemp fun _ => .fresh (fun _ => ⟨_, rfl⟩) fun _ =>
      .freshLabel fun _ => .pure rfl
  | assign name value hvalue =>
    exact .ofParts (hvalue.bindValue fun _ => .pure rfl)
  | assignBuiltin name value hvalue =>
    exact .ofParts (hvalue.bind fun _ _ => .pure rfl)
  | load cell address haddress =>
    exact .ofParts (haddress.bindValue fun _ => .freshTemp fun _ => .pure rfl)
  | store cell address value haddress hvalue =>
    exact .ofParts (haddress.bindValue fun _ => hvalue.bindValue fun _ => .pure rfl)
  | control property target value hvalue =>
    exact .ofParts (hvalue.bindValue fun _ => .pure rfl)
  | unary op operand hoperand =>
    apply AnswersTree.ofParts
    apply hoperand.bindValue
    intro v
    exact answers_operation (unaryOperation?_isSome op) fun _ => .freshTemp fun _ => .pure rfl
  | binary op left right hleft hright =>
    apply AnswersTree.ofParts
    apply hleft.bindValue
    intro l
    apply hright.bindValue
    intro r
    exact answers_operation (binaryOperation?_isSome op) fun _ => .freshTemp fun _ => .pure rfl
  | call name args hargs =>
    apply AnswersTree.ofParts
    apply (answers_lowerArgs hargs name 1).bind
    intro vs hvs
    exact (answers_expandCall name (by rw [List.length_map, hvs])).bindPure fun _ _ => rfl
  | num | str | sensor => exact .ofParts (.freshTemp fun _ => .pure rfl)
  -- the rest takes no name and cannot fail
  | _ => exact .ofParts (.pure rfl)

end Lowering

/-- Lowering a tree succeeds iff nothing is wrong with any node in it, and the
    code then has a value iff the tree has one.  Otherwise it fails with what is
    wrong first in the order of evaluation.  None of this depends on the names
    that have been given out before. -/
theorem lower_succeeds_iff_sound (e : Expr) (names : Names) :
    ((∃ f, ((lower e).runFrom names).1 = .ok f) ↔ ∀ node : Expr, node.Within e → node.Sound) ∧
    (∀ f, ((lower e).runFrom names).1 = .ok f → f.value.isSome = e.hasValue) ∧
    ∀ error, ((lower e).runFrom names).1 = .error error ↔ e.violations.head? = some error := by
  rw [← e.violations_eq_nil_iff]
  rcases Lowering.answersTree e names with ⟨hnil, f, hf, hvalue⟩ | ⟨fault, hhead, hfault⟩
  · -- nothing is wrong, and there is code
    rw [hf, hnil]
    refine ⟨by simp, ?_, by simp⟩
    intro g hg
    rw [← Except.ok.inj hg]
    exact hvalue
  · -- the first fault is the answer
    rw [hfault, hhead]
    have hne : e.violations ≠ [] := by
      intro hnil
      rw [hnil] at hhead
      exact absurd hhead (by simp)
    exact ⟨by simp [hne], by simp, by simp⟩

end Mlog
