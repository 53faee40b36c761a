import Mlog.Proofs.Temporaries
import Mlog.Proofs.Violations

/-! # Code does not depend on the names given out before

    A tree that is lowered when names have been given out already has the code
    that it has at the very beginning, only with later numbers: the temporary
    variable `tmp2` becomes `tmp7` if five of them were given out before, and
    likewise for labels.  Whether the tree has code at all does not depend on the
    names either.

    * `Lowers.renumbered`: a derivation can be moved to any later start.
    * `lower_renumbered`: runs from a start with counters of its own, against runs
      from the beginning.

    A program that spells `tmp2` itself would see its own name renumbered too, so
    this is about trees that spell no name of this form. -/

namespace Mlog

/-! ## Section 1: Numbers behind a word -/

namespace Text

/-- The number behind a word, if a text consists of the two. -/
def numberAfter? (word s : String) : Option Nat :=
  let digits := s.toList.drop word.toList.length
  if word.toList.isPrefixOf s.toList && isDigits digits then some (Nat.ofDigitChars 10 digits 0)
  else none

/-- Adds to the number in a text that consists of a word and a number.  Any
    other text stays as it is. -/
def raised (word : String) (offset : Nat) (s : String) : String :=
  match numberAfter? word s with
  | some k => word ++ toString (offset + k)
  | none => s

theorem numberAfter?_append (word : String) (k : Nat) :
    numberAfter? word (word ++ toString k) = some k := by
  simp [numberAfter?, isDigits_toDigits]

theorem numberAfter?_tmp {s : String} (h : isTemp s = false) : numberAfter? "tmp" s = none := by
  have hno : ¬ ("tmp".toList.isPrefixOf s.toList && isDigits (s.toList.drop 3)) = true := by
    intro hyes
    obtain ⟨hstart, hdigits⟩ := Bool.and_eq_true_iff.mp hyes
    obtain ⟨digits, hs⟩ := List.isPrefixOf_iff_prefix.mp hstart
    have htemp : isTemp s = isDigits digits := by
      rw [isTemp, ← hs]
      rfl
    rw [← hs] at hdigits
    rw [h] at htemp
    exact absurd (htemp.trans hdigits) (by decide)
  exact if_neg hno

theorem raised_append (word : String) (offset k : Nat) :
    raised word offset (word ++ toString k) = word ++ toString (offset + k) := by
  rw [raised, numberAfter?_append]

theorem raised_tmp {s : String} (h : isTemp s = false) (offset : Nat) :
    raised "tmp" offset s = s := by
  rw [raised, numberAfter?_tmp h]

end Text

/-! ## Section 2: Renaming the operands of code -/

/-- New names for the operands of code.  Labels are renamed on their own, since
    a program may have a variable with the name of a label; the words that code
    has of its own stay. -/
structure Renaming where
  operand : String → String
  label : String → String
  operand_word : ∀ x ∈ codeWords, operand x = x

namespace Renaming

variable (ρ : Renaming)

@[simp] theorem operand_null : ρ.operand "null" = "null" := ρ.operand_word _ (by decide)

@[simp] theorem operand_true : ρ.operand "true" = "true" := ρ.operand_word _ (by decide)

@[simp] theorem operand_false : ρ.operand "false" = "false" := ρ.operand_word _ (by decide)

@[simp] theorem operand_always : ρ.operand "always" = "always" := ρ.operand_word _ (by decide)

@[simp] theorem operand_notEqual : ρ.operand "notEqual" = "notEqual" :=
  ρ.operand_word _ (by decide)

@[simp] theorem operand_rand : ρ.operand "rand" = "rand" := ρ.operand_word _ (by decide)

@[simp] theorem operand_within : ρ.operand "within" = "within" := ρ.operand_word _ (by decide)

@[simp] theorem operand_command (o : Order) : ρ.operand o.command = o.command :=
  ρ.operand_word _ o.command_mem

/-- The renaming that adds to the numbers of temporary variables and labels as
    many as were given out before. -/
def shift (start : Names) : Renaming where
  operand := Text.raised "tmp" start.temps
  label := Text.raised "label" start.labels
  operand_word x hx := Text.raised_tmp (Text.isTemp_codeWords x hx) start.temps

@[simp] theorem shift_tempName (start : Names) (k : Nat) :
    (shift start).operand (tempName k) = tempName (start.temps + k) :=
  Text.raised_append "tmp" start.temps k

@[simp] theorem shift_labelName (start : Names) (k : Nat) :
    (shift start).label (labelName k) = labelName (start.labels + k) :=
  Text.raised_append "label" start.labels k

theorem shift_labels (start : Names) (first count : Nat) :
    ((List.range' first count).map labelName).map (shift start).label =
      (List.range' (start.labels + first) count).map labelName := by
  rw [← List.map_add_range', List.map_map, List.map_map]
  exact List.map_congr_left fun k _ => shift_labelName start k

theorem shift_operand {x : String} (start : Names) (h : Text.isTemp x = false) :
    (shift start).operand x = x :=
  Text.raised_tmp h start.temps

end Renaming

namespace Instruction

/-- Renames the operands of an instruction.  Only the place that a `label`
    names, and the one that a `jump` goes to, are labels. -/
def renamed (ρ : Renaming) : Instruction → Instruction
  | ⟨.label, place :: others⟩ => ⟨.label, ρ.label place :: others.map ρ.operand⟩
  | ⟨.jump, place :: others⟩ => ⟨.jump, ρ.label place :: others.map ρ.operand⟩
  | ⟨opcode, operands⟩ => ⟨opcode, operands.map ρ.operand⟩

variable (ρ : Renaming)

@[simp] theorem renamed_set (dest value : String) :
    (set dest value).renamed ρ = set (ρ.operand dest) (ρ.operand value) := rfl

@[simp] theorem renamed_op (operation dest : String) (operands : List String) :
    (op operation dest operands).renamed ρ =
      op (ρ.operand operation) (ρ.operand dest) (operands.map ρ.operand) := rfl

@[simp] theorem renamed_jumpAlways (place : String) :
    (jumpAlways place).renamed ρ = jumpAlways (ρ.label place) := by
  show (⟨.jump, [ρ.label place, ρ.operand "always"]⟩ : Instruction) = _
  rw [ρ.operand_always]
  rfl

@[simp] theorem renamed_jumpNotEqual (place a b : String) :
    (jumpNotEqual place a b).renamed ρ =
      jumpNotEqual (ρ.label place) (ρ.operand a) (ρ.operand b) := by
  show (⟨.jump, [ρ.label place, ρ.operand "notEqual", ρ.operand a, ρ.operand b]⟩ : Instruction) = _
  rw [ρ.operand_notEqual]
  rfl

@[simp] theorem renamed_label (place : String) :
    (label place).renamed ρ = label (ρ.label place) := rfl

@[simp] theorem renamed_read (dest cell address : String) :
    (read dest cell address).renamed ρ =
      read (ρ.operand dest) (ρ.operand cell) (ρ.operand address) := rfl

@[simp] theorem renamed_write (value cell address : String) :
    (write value cell address).renamed ρ =
      write (ρ.operand value) (ρ.operand cell) (ρ.operand address) := rfl

@[simp] theorem renamed_control (property target value : String) :
    (control property target value).renamed ρ =
      control (ρ.operand property) (ρ.operand target) (ρ.operand value) := rfl

@[simp] theorem renamed_sensor (dest target property : String) :
    (sensor dest target property).renamed ρ =
      sensor (ρ.operand dest) (ρ.operand target) (ρ.operand property) := rfl

@[simp] theorem renamed_print (value : String) :
    (print value).renamed ρ = print (ρ.operand value) := rfl

@[simp] theorem renamed_printflush (block : String) :
    (printflush block).renamed ρ = printflush (ρ.operand block) := rfl

@[simp] theorem renamed_getlink (operands : List String) :
    (⟨.getlink, operands⟩ : Instruction).renamed ρ = ⟨.getlink, operands.map ρ.operand⟩ := rfl

@[simp] theorem renamed_ubind (operands : List String) :
    (⟨.ubind, operands⟩ : Instruction).renamed ρ = ⟨.ubind, operands.map ρ.operand⟩ := rfl

@[simp] theorem renamed_ucontrol (command : String) (operands : List String) :
    (ucontrol command operands).renamed ρ =
      ucontrol (ρ.operand command) (operands.map ρ.operand) := rfl

end Instruction

/-- Renames the value and the code of a fragment. -/
def Fragment.renamed (ρ : Renaming) (f : Fragment) : Fragment :=
  ⟨f.value.map ρ.operand, f.code.map (Instruction.renamed ρ)⟩

/-- Renames the value and the code of a fragment with a value. -/
def Valued.renamed (ρ : Renaming) (v : Valued) : Valued :=
  ⟨ρ.operand v.value, v.code.map (Instruction.renamed ρ)⟩

/-- Renames the pattern and the body of an arm. -/
def renamedArm (ρ : Renaming) (arm : Valued × Valued) : Valued × Valued :=
  (arm.1.renamed ρ, arm.2.renamed ρ)

section Code

variable (ρ : Renaming)

@[simp] theorem Valued.value_renamed (v : Valued) : (v.renamed ρ).value = ρ.operand v.value := rfl

@[simp] theorem Valued.code_renamed (v : Valued) :
    (v.renamed ρ).code = v.code.map (Instruction.renamed ρ) := rfl

theorem Valued.map_value_renamed (vs : List Valued) :
    (vs.map (Valued.renamed ρ)).map Valued.value = (vs.map Valued.value).map ρ.operand := by
  rw [List.map_map, List.map_map]
  rfl

theorem Valued.flatMap_code_renamed (vs : List Valued) :
    (vs.map (Valued.renamed ρ)).flatMap Valued.code =
      (vs.flatMap Valued.code).map (Instruction.renamed ρ) := by
  rw [List.flatMap_map, List.map_flatMap]
  rfl

@[simp] theorem Fragment.code_renamed (f : Fragment) :
    (f.renamed ρ).code = f.code.map (Instruction.renamed ρ) := rfl

@[simp] theorem Fragment.valueOrNull_renamed (f : Fragment) :
    (f.renamed ρ).valueOrNull = ρ.operand f.valueOrNull := by
  cases f with
  | mk value code =>
    cases value with
    | none => exact ρ.operand_null.symm
    | some operand => rfl

theorem branchCode_renamed (c y : Valued) (f : Fragment) (result elsePlace endPlace : String) :
    (branchCode c y f result elsePlace endPlace).map (Instruction.renamed ρ) =
      branchCode (c.renamed ρ) (y.renamed ρ) (f.renamed ρ) (ρ.operand result)
        (ρ.label elsePlace) (ρ.label endPlace) := by
  simp [branchCode]

theorem loopCode_renamed (c : Valued) (f : Fragment) (condPlace donePlace : String) :
    (loopCode c f condPlace donePlace).map (Instruction.renamed ρ) =
      loopCode (c.renamed ρ) (f.renamed ρ) (ρ.label condPlace) (ρ.label donePlace) := by
  simp [loopCode]

theorem armCode_renamed (subject : String) (p b : Valued) (result next endPlace : String) :
    (armCode subject p b result next endPlace).map (Instruction.renamed ρ) =
      armCode (ρ.operand subject) (p.renamed ρ) (b.renamed ρ) (ρ.operand result) (ρ.label next)
        (ρ.label endPlace) := by
  simp [armCode]

theorem armsCode_renamed (subject result endPlace : String) (arms : List (Valued × Valued))
    (places : List String) :
    (armsCode subject result endPlace arms places).map (Instruction.renamed ρ) =
      armsCode (ρ.operand subject) (ρ.operand result) (ρ.label endPlace)
        (arms.map (renamedArm ρ)) (places.map ρ.label) := by
  induction arms generalizing places with
  | nil => rfl
  | cons arm arms ih =>
    obtain ⟨p, b⟩ := arm
    cases places with
    | nil => rfl
    | cons place places =>
      simp only [armsCode, List.map_append, List.map_cons, armCode_renamed, ih, renamedArm]

theorem selectCode_renamed (s : Valued) (arms : List (Valued × Valued)) (f : Fragment)
    (result : String) (places : List String) (endPlace : String) :
    (selectCode s arms f result places endPlace).map (Instruction.renamed ρ) =
      selectCode (s.renamed ρ) (arms.map (renamedArm ρ)) (f.renamed ρ) (ρ.operand result)
        (places.map ρ.label) (ρ.label endPlace) := by
  simp [selectCode, armsCode_renamed]

theorem Intrinsic.code_renamed (f : Intrinsic) (result : String) (args : List String) :
    (f.code result args).renamed ρ = f.code (ρ.operand result) (args.map ρ.operand) := by
  have hvalue : ρ.operand (f.code result args).value =
      (f.code (ρ.operand result) (args.map ρ.operand)).value := by
    have hresult := f.result_map ρ.operand "null" result args
    rw [ρ.operand_null] at hresult
    rw [value_code, value_code, hresult]
  have hcode : (f.code result args).code.map (Instruction.renamed ρ) =
      (f.code (ρ.operand result) (args.map ρ.operand)).code := by
    cases f with
    | order o => simp [code, Order.operands_map]
    | _ => simp [code, List.map_take]
  show (⟨_, _⟩ : Valued) = _
  rw [hvalue, hcode]

end Code

/-! ## Section 3: Derivations from a later start -/

/-- Counters added to counters. -/
instance : Add Names := ⟨fun a b => ⟨a.temps + b.temps, a.labels + b.labels⟩⟩

@[simp] theorem Names.temps_add (a b : Names) : (a + b).temps = a.temps + b.temps := rfl

@[simp] theorem Names.labels_add (a b : Names) : (a + b).labels = a.labels + b.labels := rfl

@[simp] theorem Names.add_mk (start : Names) (temps labels : Nat) :
    start + ⟨temps, labels⟩ = ⟨start.temps + temps, start.labels + labels⟩ := rfl

theorem Names.add_none (start : Names) : start + Names.none = start := rfl

/-- Arguments can be moved to a later start if each of them can. -/
theorem EachArg.renumbered {P : Expr → Names → Valued → Names → Prop} (start : Names)
    {args : List Expr} {vs : List Valued} {n n' : Names} (h : EachArg P args n vs n')
    (hshift : ∀ arg ∈ args, ∀ n v n', P arg n v n' →
      P arg (start + n) (v.renamed (.shift start)) (start + n')) :
    EachArg P args (start + n) (vs.map (Valued.renamed (.shift start))) (start + n') := by
  induction h with
  | nil n => exact .nil (start + n)
  | cons harg _ ih =>
    obtain ⟨hfirst, hothers⟩ := List.forall_mem_cons.mp hshift
    exact .cons (hfirst _ _ _ harg) (ih hothers)

/-- Arms can be moved to a later start if their patterns and bodies can. -/
theorem EachArm.renumbered {P : Expr → Names → Valued → Names → Prop} (start : Names)
    {arms : List (Expr × Expr)} {vs : List (Valued × Valued)} {n n' : Names}
    (h : EachArm P arms n vs n')
    (hshift : ∀ part ∈ arms.flatMap fun arm => [arm.1, arm.2], ∀ n v n', P part n v n' →
      P part (start + n) (v.renamed (.shift start)) (start + n')) :
    EachArm P arms (start + n) (vs.map (renamedArm (.shift start))) (start + n') := by
  induction h with
  | nil n => exact .nil (start + n)
  | cons hpattern hbody _ ih =>
    obtain ⟨hfirst, hothers⟩ := List.forall_mem_append.mp hshift
    exact .cons (hfirst _ (by simp) _ _ _ hpattern) (hfirst _ (by simp) _ _ _ hbody) (ih hothers)

/-- A derivation can be moved to a later start: the code is that of the earlier
    start with later names, and as many names are given out. -/
theorem Lowers.renumbered {e : Expr} (start : Names) {n : Names} {f : Fragment} {n' : Names}
    (h : Lowers e n f n') (he : e.SparesTemps) :
    Lowers e (start + n) (f.renamed (.shift start)) (start + n') := by
  induction e using Expr.children_induction generalizing n f n' with
  | step e ih =>
    have hpart : ∀ child ∈ e.children, ∀ {n f n'}, Lowers child n f n' →
        Lowers child (start + n) (f.renamed (.shift start)) (start + n') :=
      fun child hchild _ _ _ hlowers => ih child hchild hlowers (he.child hchild)
    -- the same for a part whose value is needed
    have hvalued : ∀ child ∈ e.children, ∀ {n n'} {v : Valued}, Lowers child n v.toFragment n' →
        Lowers child (start + n) (v.renamed (.shift start)).toFragment (start + n') :=
      fun child hchild _ _ _ hlowers => hpart child hchild hlowers
    -- what the node spells itself is no temporary variable, so it stays
    have hspelled : ∀ x ∈ e.spelled, (Renaming.shift start).operand x = x :=
      fun x hx => Renaming.shift_operand start (he.self x hx)
    cases h with
    | null => simpa [Fragment.renamed, Fragment.constant] using Lowers.null (start + n)
    | bool value =>
      have h := Lowers.bool value (start + n)
      cases value <;> simpa [Fragment.renamed, Fragment.constant] using h
    -- a literal takes the next variable, and the number of that is shifted too
    | num literal =>
      have hliteral := hspelled literal (.head _)
      simpa [Fragment.renamed, hliteral, Nat.add_assoc] using Lowers.num literal (start + n)
    | str text =>
      have htext := hspelled (Text.quoted text) (.head _)
      simpa [Fragment.renamed, htext, Nat.add_assoc] using Lowers.str text (start + n)
    | var name =>
      have hname := hspelled name (.head _)
      simpa [Fragment.renamed, Fragment.constant, hname] using Lowers.var name (start + n)
    | builtin name =>
      have hname := hspelled ("@" ++ name) (.head _)
      simpa [Fragment.renamed, Fragment.constant, hname] using Lowers.builtin name (start + n)
    | seq hrest hlast =>
      have h := Lowers.seq (hpart _ (.head _) hrest) (hpart _ (.tail _ (.head _)) hlast)
      simpa [Fragment.renamed] using h
    -- the two labels come behind all labels of the parts
    | branch hcond hyes hno =>
      have h := Lowers.branch (hvalued _ (.head _) hcond) (hvalued _ (.tail _ (.head _)) hyes)
        (hpart _ (.tail _ (.tail _ (.head _))) hno)
      simpa [Fragment.renamed, branchCode_renamed, Nat.add_assoc] using h
    | loop hcond hbody =>
      have h := Lowers.loop (hvalued _ (.head _) hcond) (hpart _ (.tail _ (.head _)) hbody)
      simpa [Fragment.renamed, loopCode_renamed, Nat.add_assoc] using h
    | @select subject arms otherwise s as f _ n₁ n₂ n₃ hsubject harms hotherwise =>
      rw [Expr.children_select] at hpart hvalued
      have hmoved := harms.renumbered start fun part hmem _ _ _ hlowers =>
        hvalued part (.tail _ (List.mem_append_left _ hmem)) hlowers
      -- the labels of the arms are numbered in one go, behind those of all parts
      have h := Lowers.select (hvalued _ (.head _) hsubject) hmoved (hpart _ (by simp) hotherwise)
      simpa [Fragment.renamed, selectCode_renamed, Renaming.shift_labels, Nat.add_assoc,
        -List.map_map] using h
    | @assign name value v _ _ hvalue =>
      have hname := hspelled name (.head _)
      have h : Lowers (.assign name value) _ _ _ :=
        .assign (hvalued _ (.head _) hvalue)
      simpa [Fragment.renamed, hname] using h
    | @assignBuiltin name value g _ _ hvalue =>
      have hname := hspelled ("@" ++ name) (.head _)
      have h : Lowers (.assignBuiltin name value) _ _ _ :=
        .assignBuiltin (hpart _ (.head _) hvalue)
      simpa [Fragment.renamed, hname] using h
    | @load cell address a _ _ haddress =>
      have hcell := hspelled cell (.head _)
      have h : Lowers (.load cell address) _ _ _ :=
        .load (hvalued _ (.head _) haddress)
      simpa [Fragment.renamed, hcell, Nat.add_assoc] using h
    | @store cell address value a v _ _ _ haddress hvalue =>
      have hcell := hspelled cell (.head _)
      have h : Lowers (.store cell address value) _ _ _ :=
        .store (hvalued _ (.head _) haddress) (hvalued _ (.tail _ (.head _)) hvalue)
      simpa [Fragment.renamed, hcell] using h
    | @control property target value v _ _ hvalue =>
      have hproperty := hspelled property (.head _)
      have htarget := hspelled target (.tail _ (.head _))
      have h : Lowers (.control property target value) _ _ _ :=
        .control (hvalued _ (.head _) hvalue)
      simpa [Fragment.renamed, hproperty, htarget] using h
    | sensor target name =>
      have htarget := hspelled target (.head _)
      have hname := hspelled name (.tail _ (.head _))
      simpa [Fragment.renamed, htarget, hname, Nat.add_assoc] using
        Lowers.sensor target name (start + n)
    | unary hoperand hop =>
      have hword := (Renaming.shift start).operand_word _ (unaryOperation?_mem hop)
      have h := Lowers.unary (hvalued _ (.head _) hoperand) hop
      simpa [Fragment.renamed, hword, Nat.add_assoc] using h
    | binary hleft hright hop =>
      have hword := (Renaming.shift start).operand_word _ (binaryOperation?_mem hop)
      have h := Lowers.binary (hvalued _ (.head _) hleft) (hvalued _ (.tail _ (.head _)) hright) hop
      simpa [Fragment.renamed, hword, Nat.add_assoc] using h
    | @call name args vs fn _ m hargs hfn harity =>
      rw [Expr.children_call] at hvalued
      have hmoved := hargs.renumbered start fun arg harg _ _ _ hlowers => hvalued arg harg hlowers
      have h := Lowers.call hmoved hfn harity
      rw [Valued.map_value_renamed, Valued.flatMap_code_renamed] at h
      have hcode := fn.code_renamed (.shift start) (tempName m.temps) (vs.map Valued.value)
      rw [Renaming.shift_tempName] at hcode
      simpa [Fragment.renamed, ← hcode, Nat.add_assoc, -List.map_map] using h
    | comment text => exact .comment text (start + n)
    | nop => exact .nop (start + n)

/-! ## Section 4: Runs from a later start -/

namespace Lowering.Answers

variable {α : Type} {step : Lowering α} {faults : List LoweringError} {Q : α → Prop}

/-- Whether a step succeeds does not depend on the names given out before. -/
theorem ok_iff (h : Answers step faults Q) (names : Names) :
    (∃ a, (step.runFrom names).1 = .ok a) ↔ faults = [] := by
  rcases h names with ⟨hnil, a, ha, -⟩ | ⟨fault, hhead, hfault⟩
  · simp [hnil, ha]
  · have hne : faults ≠ [] := by
      intro hnil
      rw [hnil] at hhead
      exact absurd hhead (by simp)
    simp [hne, hfault]

/-- Nor does the fault of a step that fails. -/
theorem error_iff (h : Answers step faults Q) (names : Names) (error : LoweringError) :
    (step.runFrom names).1 = .error error ↔ faults.head? = some error := by
  rcases h names with ⟨hnil, a, ha, -⟩ | ⟨fault, hhead, hfault⟩
  · simp [hnil, ha]
  · simp [hhead, hfault]

end Lowering.Answers

/-- Lowering a tree when `t` temporary variables and `l` labels have been given
    out, against lowering it at the beginning.  Both fail, with the same error,
    or both succeed; then the value and the code are those of the beginning with
    `t` added to the numbers of temporary variables and `l` to those of labels,
    and the counters go up by as much as they do there. -/
theorem lower_renumbered (e : Expr) (he : e.SparesTemps) (t l : Nat) :
    ((∃ f, ((lower e).runFrom ⟨t, l⟩).1 = .ok f) ↔ ∃ f, ((lower e).runFrom .none).1 = .ok f) ∧
    (∀ error, ((lower e).runFrom ⟨t, l⟩).1 = .error error ↔
      ((lower e).runFrom .none).1 = .error error) ∧
    ∀ f a b, (lower e).runFrom .none = (.ok f, ⟨a, b⟩) →
      (lower e).runFrom ⟨t, l⟩ = (.ok (f.renamed (.shift ⟨t, l⟩)), ⟨t + a, l + b⟩) := by
  have hanswers := Lowering.answersTree e
  refine ⟨?_, ?_, ?_⟩
  · rw [hanswers.ok_iff, hanswers.ok_iff]
  · intro error
    rw [hanswers.error_iff, hanswers.error_iff]
  · intro f a b hrun
    have hmoved := (lowers_of_run hrun).renumbered ⟨t, l⟩ he
    rw [Names.add_none] at hmoved
    exact run_of_lowers hmoved

/-- `while label0 { x = case rand(9) { when tmp { "tmp0" } } }`: a variable with
    the name of a label, one that is not quite a temporary variable, and a text
    that reads like one. -/
def lookalikes : Expr :=
  .loop (.var "label0")
    (.assign "x" (.select (.call "rand" [.num "9"]) [(.var "tmp", .str "tmp0")] .nop))

theorem lower_lookalikes :
    lookalikes.SparesTemps ∧
    (lower lookalikes).runFrom ⟨5, 7⟩ =
      (.ok ⟨some "tmp8",
        [.label "label9", .jumpNotEqual "label10" "label0" "true", .set "tmp5" "9",
         .op "rand" "tmp6" ["tmp5"], .jumpNotEqual "label7" "tmp6" "tmp",
         .set "tmp7" "\"tmp0\"", .set "tmp8" "tmp7", .jumpAlways "label8", .label "label7",
         .set "tmp8" "null", .label "label8", .set "x" "tmp8", .jumpAlways "label9",
         .label "label10"]⟩, ⟨9, 11⟩) := by
  have hspares : lookalikes.SparesTemps := by decide +kernel
  exact ⟨hspares, (lower_renumbered lookalikes hspares 5 7).2.2 _ _ _ rfl⟩

end Mlog
