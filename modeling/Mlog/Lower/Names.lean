/-! # Names for temporary variables and labels

    Temporary variables are named `tmp0`, `tmp1`, … and labels `label0`,
    `label1`, … in the order they are asked for; no name is given out
    twice.

    The counts here have no bound.  Counts of 32 bits overflow after 2 ^ 32 names, so
    what rests on every name being new is about code that takes fewer: that labels
    are defined once (`Proofs.Labels`, `Proofs.Parts`, `Proofs.Jumps`), that
    temporary variables are kept apart (`Proofs.Temporaries`, `Proofs.Writing`,
    `Proofs.Assignment`, `Proofs.Waiting`, `Proofs.Renumbering`), and what the code
    then does (`Proofs.Preservation`).  Which trees can be lowered, with which
    messages, and what kinds of instructions they come to does not rest on it. -/

namespace Mlog

/-- The temporary variable with a number. -/
def tempName (n : Nat) : String := "tmp" ++ toString n

/-- The label with a number. -/
def labelName (n : Nat) : String := "label" ++ toString n

/-- Texts that end in different numbers differ. -/
private theorem append_toString_inj (s : String) {i j : Nat} :
    s ++ toString i = s ++ toString j ↔ i = j := by
  refine ⟨fun h => ?_, fun h => h ▸ rfl⟩
  have h := congrArg String.toList h
  simp only [String.toList_append, List.append_cancel_left_eq] at h
  -- a number can be read back from its digits
  simpa [Nat.toString_eq_ofList_toDigits] using congrArg (Nat.ofDigitChars 10 · 0) h

@[simp]
theorem tempName_inj {i j : Nat} : tempName i = tempName j ↔ i = j := append_toString_inj "tmp"

@[simp]
theorem labelName_inj {i j : Nat} : labelName i = labelName j ↔ i = j :=
  append_toString_inj "label"

/-- How many names have been given out, without any bound. -/
structure Names where
  temps : Nat
  labels : Nat
deriving DecidableEq, Repr

namespace Names

/-- No name has been given out. -/
def none : Names := ⟨0, 0⟩

/-- Gives out the next temporary variable. -/
def freshTemp (names : Names) : String × Names :=
  (tempName names.temps, { names with temps := names.temps + 1 })

/-- Gives out the next label. -/
def freshLabel (names : Names) : String × Names :=
  (labelName names.labels, { names with labels := names.labels + 1 })

/-- Gives out the next `count` labels. -/
def freshLabels (count : Nat) (names : Names) : List String × Names :=
  ((List.range' names.labels count).map labelName, { names with labels := names.labels + count })

end Names

end Mlog
