import Mlog.Instruction
import Mlog.Lower.Error
import Mlog.Lower.Names

/-! # Code fragments

    A fragment is the code of a part of a program together with the operand
    that holds the value of the part once the code has run.  The functions
    here put fragments together; the names of temporary variables and labels
    are given to them. -/

namespace Mlog

/-! ## Section 1: Fragments -/

/-- The code of a part, and the operand that holds its value if it has one. -/
structure Fragment where
  value : Option String
  code : List Instruction
deriving DecidableEq, Repr

/-- The code of a part that has a value. -/
structure Valued where
  value : String
  code : List Instruction
deriving DecidableEq, Repr

namespace Fragment

/-- No code and no value. -/
def empty : Fragment := ⟨none, []⟩

/-- A value that needs no code. -/
def constant (value : String) : Fragment := ⟨some value, []⟩

/-- The operand of the value, `null` if there is none. -/
def valueOrNull (f : Fragment) : String := f.value.getD "null"

end Fragment

/-- A fragment with a value is a fragment. -/
def Valued.toFragment (v : Valued) : Fragment := ⟨some v.value, v.code⟩

/-! ## Section 2: Control flow -/

/-- The code of an `if`: either `yes` or `no` gives its value to `result`. -/
def branchCode (cond yes : Valued) (no : Fragment) (result elseLabel endLabel : String) :
    List Instruction :=
  cond.code ++ [.jumpNotEqual elseLabel cond.value "true"] ++
  yes.code ++ [.set result yes.value, .jumpAlways endLabel, .label elseLabel] ++
  no.code ++ [.set result no.valueOrNull, .label endLabel]

/-- The code of a `while`. -/
def loopCode (cond : Valued) (body : Fragment) (condLabel doneLabel : String) :
    List Instruction :=
  [.label condLabel] ++ cond.code ++ [.jumpNotEqual doneLabel cond.value "true"] ++
  body.code ++ [.jumpAlways condLabel, .label doneLabel]

/-- The code of an arm of a `case`: a pattern and what to do on a match. -/
def armCode (subject : String) (pattern body : Valued) (result nextLabel endLabel : String) :
    List Instruction :=
  pattern.code ++ [.jumpNotEqual nextLabel subject pattern.value] ++
  body.code ++ [.set result body.value, .jumpAlways endLabel, .label nextLabel]

/-- The code of the arms of a `case`, each with the label of what follows it. -/
def armsCode (subject result endLabel : String) :
    List (Valued × Valued) → List String → List Instruction
  | (pattern, body) :: arms, nextLabel :: labels =>
    armCode subject pattern body result nextLabel endLabel ++
    armsCode subject result endLabel arms labels
  | _, _ => []

/-- The code of a `case`. -/
def selectCode (subject : Valued) (arms : List (Valued × Valued)) (otherwise : Fragment)
    (result : String) (nextLabels : List String) (endLabel : String) : List Instruction :=
  subject.code ++ armsCode subject.value result endLabel arms nextLabels ++
  otherwise.code ++ [.set result otherwise.valueOrNull, .label endLabel]

/-! ## Section 3: Lowering steps -/

/-- A step of lowering: it may give out names, and it may fail.  The names
    given out before a failure stay given out. -/
abbrev Lowering := ExceptT LoweringError (StateM Names)

namespace Lowering

/-- Runs a step, given the names given out so far. -/
def runFrom {α : Type} (step : Lowering α) (names : Names) : Except LoweringError α × Names :=
  step.run.run names

/-- The next temporary variable. -/
def freshTemp : Lowering String := modifyGet Names.freshTemp

/-- The next label. -/
def freshLabel : Lowering String := modifyGet Names.freshLabel

/-- The next labels. -/
def freshLabels (count : Nat) : Lowering (List String) := modifyGet (Names.freshLabels count)

/-- Insists that a part has a value. -/
def needValue (role : Role) (part : Expr) (f : Fragment) : Lowering Valued :=
  match f.value with
  | some value => pure ⟨value, f.code⟩
  | none => throw (.noValue role part)

end Lowering

end Mlog
