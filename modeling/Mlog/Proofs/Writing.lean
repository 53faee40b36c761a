import Mathlib.Control.Monad.Basic
import Mlog.Expr.Equality
import Mlog.Proofs.Parts
import Mlog.Proofs.Temporaries

/-! # What programs write

    A node writes the variable that it assigns to, or the temporary variable that it
    takes, and nothing else.  Temporary variables have names like all others, so a
    variable of a program can be one of them.

    * `Lowers.mem_writtenIn`: what the code of a tree writes.
    * `captured_iff`: which variables of a program are also temporary variables. -/

namespace Mlog

/-! ## Section 1: What code writes -/

/-- The variables that code writes, in the order of the code. -/
def writtenIn (code : List Instruction) : List String := code.filterMap Instruction.destination?

theorem mem_writtenIn {code : List Instruction} {x : String} :
    x ∈ writtenIn code ↔ ∃ i ∈ code, i.destination? = some x := List.mem_filterMap

namespace Expr

theorem writers_of_assigned? {e : Expr} {x : String} (h : e.assigned? = some x) :
    e.writers = [] := by
  cases e <;> simp_all [assigned?, writers]

end Expr

/-- An instruction that assigns to a variable of the program. -/
def AssignsTo (e : Expr) (n : Names) (i : Instruction) (x : String) : Prop :=
  ∃ node, AddedBy e n node i ∧ node.assigned? = some x

/-- An instruction that gives a temporary variable a value: one that writes and does
    not belong to an assignment. -/
def DefinesTemp (e : Expr) (n : Names) (i : Instruction) (x : String) : Prop :=
  ∃ node, AddedBy e n node i ∧ node.assigned? = none ∧ i.destination? = some x

section

variable {e : Expr} {n n' : Names} {fs : List Fragment} {own : List Instruction}
  {value : Option String} {x : String}

/-- An assignment adds the instruction that writes its variable. -/
theorem Glued.own_of_assigned? (h : Glued e n fs own value n') (hassigned : e.assigned? = some x) :
    ∃ v, own = [.set x v] := by
  cases h with
  | assign name value v n =>
    obtain rfl := Option.some.inj hassigned
    exact ⟨v.value, rfl⟩
  | _ => exact absurd hassigned (by simp [Expr.assigned?])

/-- What another node writes is the variable that it takes. -/
theorem Glued.mem_writtenIn (h : Glued e n fs own value n') (hassigned : e.assigned? = none) :
    x ∈ writtenIn own ↔ n.temps < n'.temps ∧ x = tempName n.temps := by
  rw [Mlog.mem_writtenIn, ← writersIn_ne_nil, h.writersIn_own, hassigned, h.temps_eq]
  by_cases hwriters : e.writers = []
  · simp [hwriters]
  · by_cases hx : tempName n.temps = x
    · simp [hwriters, hx]
    · simp [hx, Ne.symm hx]

end

namespace Lowers

variable {e : Expr} {n n' : Names} {f : Fragment} {x : String}

theorem destination_of_assignsTo {i : Instruction} (h : AssignsTo e n i x) :
    i.destination? = some x := by
  obtain ⟨node, hadded, hassigned⟩ := h
  obtain ⟨_, _, _, _, _, own, _, _, hglued, _, hi⟩ := hadded.exists_own
  obtain ⟨v, rfl⟩ := hglued.own_of_assigned? hassigned
  rw [List.mem_singleton.mp hi]
  rfl

/-- The names that the program assigns to are those in its tree. -/
theorem exists_assignsTo (h : Lowers e n f n') :
    (∃ i, AssignsTo e n i x) ↔ x ∈ e.assignedNames := by
  rw [Expr.mem_assignedNames]
  constructor
  · rintro ⟨i, node, hadded, hassigned⟩
    obtain ⟨_, _, _, _, _, _, hwithin, _⟩ := hadded.exists_own
    exact ⟨node, hwithin.within, hassigned⟩
  · rintro ⟨node, hnode, hassigned⟩
    obtain ⟨m, g, m', hwithin⟩ := h.exists_within hnode
    obtain ⟨fs, k, own, hparts, hglued, hwoven⟩ := hwithin.lowers.woven
    obtain ⟨v, rfl⟩ := hglued.own_of_assigned? hassigned
    have hadded : AddedBy e n node (.set x v) :=
      ⟨m, g, m', fs, k, _, hwithin, hparts, hglued, hwoven, List.mem_singleton_self _⟩
    exact ⟨.set x v, node, hadded, hassigned⟩

/-- A variable that was given out for the tree is taken by one of its nodes. -/
theorem exists_definesTemp_of_lt (h : Lowers e n f n') {k : Nat} (hk : n.temps ≤ k)
    (hk' : k < n'.temps) : ∃ i, DefinesTemp e n i (tempName k) := by
  induction e using Expr.children_induction generalizing n f n' with
  | step e ih =>
    obtain ⟨fs, m, own, hparts, hglued, hwoven⟩ := h.woven
    by_cases hpart : k < m.temps
    · -- the variable belongs to a part
      obtain ⟨before, child, after, gs, g, p, p', hchildren, hbefore, hchild, hp, hp'⟩ :=
        hparts.exists_temp hk hpart
      obtain ⟨i, node, hadded, hassigned, hdest⟩ := ih child (by simp [hchildren]) hchild hp hp'
      exact ⟨i, node, hadded.part hchildren hbefore, hassigned, hdest⟩
    · -- the node itself takes one variable at most
      have htemps := hglued.temps_eq
      have hwriters : e.writers ≠ [] := by
        intro hnone
        rw [if_pos hnone] at htemps
        omega
      rw [if_neg hwriters] at htemps
      obtain rfl : m.temps = k := by omega
      have hassigned : e.assigned? = none := by
        cases hassigned : e.assigned? with
        | none => rfl
        | some y => exact absurd (Expr.writers_of_assigned? hassigned) hwriters
      obtain ⟨i, hi, hdest⟩ := mem_writtenIn.mp ((hglued.mem_writtenIn hassigned).mpr ⟨hk', rfl⟩)
      exact ⟨i, e, ⟨n, f, n', fs, m, own, .self h, hparts, hglued, hwoven, hi⟩, hassigned, hdest⟩

/-- The variables other than those assigned to that a program writes are those given
    out for its tree. -/
theorem exists_definesTemp (h : Lowers e n f n') :
    (∃ i, DefinesTemp e n i x) ↔ ∃ k, n.temps ≤ k ∧ k < n'.temps ∧ x = tempName k := by
  constructor
  · rintro ⟨i, node, hadded, hassigned, hdest⟩
    obtain ⟨m, g, m', fs, k, own, hwithin, hparts, hglued, _, hi⟩ := hadded.exists_own
    obtain ⟨hlt, hx⟩ := (hglued.mem_writtenIn hassigned).mp (mem_writtenIn.mpr ⟨i, hi, hdest⟩)
    obtain ⟨hle, hle', _⟩ := hwithin.enclosed h
    have hbefore := hle.temps
    have hparts := hparts.names_le.temps
    have hafter := hle'.temps
    exact ⟨k.temps, by omega, by omega, hx⟩
  · rintro ⟨k, hk, hk', rfl⟩
    exact h.exists_definesTemp_of_lt hk hk'

/-- An instruction that writes is of one of the two kinds. -/
theorem destination_cases (h : Lowers e n f n') {i : Instruction} :
    i ∈ f.code ∧ i.destination? = some x ↔ DefinesTemp e n i x ∨ AssignsTo e n i x := by
  rw [h.mem_code]
  constructor
  · rintro ⟨⟨node, hadded⟩, hdest⟩
    cases hassigned : node.assigned? with
    | none => exact .inl ⟨node, hadded, hassigned, hdest⟩
    | some y =>
      have heq : i.destination? = some y := destination_of_assignsTo ⟨node, hadded, hassigned⟩
      obtain rfl := Option.some.inj (hdest.symm.trans heq)
      exact .inr ⟨node, hadded, hassigned⟩
  · rintro (⟨node, hadded, _, hdest⟩ | hassigns)
    · exact ⟨⟨node, hadded⟩, hdest⟩
    · have hdest := destination_of_assignsTo hassigns
      obtain ⟨node, hadded, _⟩ := hassigns
      exact ⟨⟨node, hadded⟩, hdest⟩

/-- What the code of a tree writes: the names that the tree assigns to and the
    temporary variables that were given out for it. -/
theorem mem_writtenIn (h : Lowers e n f n') :
    x ∈ writtenIn f.code ↔
      x ∈ e.assignedNames ∨ ∃ k, n.temps ≤ k ∧ k < n'.temps ∧ x = tempName k := by
  rw [← h.exists_assignsTo, ← h.exists_definesTemp, Mlog.mem_writtenIn]
  simp only [h.destination_cases]
  rw [exists_or, or_comm]

end Lowers

/-! ## Section 2: Variables with the names of temporary variables -/

namespace Expr

/-- The variables, memory cells and blocks that are named in a tree. -/
def identifiers (e : Expr) : List String := e.nodes.flatMap ownIdentifiers

theorem mem_identifiers_of_assigned {e : Expr} {x : String} (h : x ∈ e.assignedNames) :
    x ∈ e.identifiers := by
  obtain ⟨node, hnode, hassigned⟩ := mem_assignedNames.mp h
  refine List.mem_flatMap.mpr ⟨node, mem_nodes.mpr hnode, ?_⟩
  cases node <;> simp_all [assigned?, ownIdentifiers]

end Expr

/-- The instructions of a program that write are those that define a temporary
    variable and those that assign.  The former write exactly `tmp0`, `tmp1` and so on
    up to the number of variables given out, and the latter exactly the names that the
    program assigns to.  So a variable of the program is overwritten by the definition
    of a temporary variable exactly if it has the name of one that was given out, and if
    no variable, memory cell or block has, then the definitions spare all that the
    program names and the assignments spare all temporary variables. -/
theorem captured_iff {emitEnd : Bool} {source : String} {program : List Instruction}
    (h : compileToInstructions emitEnd source = .ok program) :
    ∃ e f n', parseSource source = .ok e ∧ Lowers e .none f n' ∧
      (∀ i x, i ∈ program ∧ i.destination? = some x ↔
        DefinesTemp e .none i x ∨ AssignsTo e .none i x) ∧
      (∀ x, (∃ i, DefinesTemp e .none i x) ↔ ∃ k < n'.temps, x = tempName k) ∧
      (∀ x, (∃ i, AssignsTo e .none i x) ↔ x ∈ e.assignedNames) ∧
      ((∀ k < n'.temps, tempName k ∉ e.identifiers) →
        (∀ i x, DefinesTemp e .none i x → x ∉ e.identifiers) ∧
        ∀ i x, AssignsTo e .none i x → ∀ k < n'.temps, x ≠ tempName k) := by
  obtain ⟨e, f, n', hparse, hlowers, rfl⟩ := lowers_of_compileToInstructions h
  have htemps : ∀ x, (∃ i, DefinesTemp e .none i x) ↔ ∃ k < n'.temps, x = tempName k := by
    intro x
    rw [hlowers.exists_definesTemp]
    simp [Names.none]
  have hassigns : ∀ x, (∃ i, AssignsTo e .none i x) ↔ x ∈ e.assignedNames :=
    fun x => hlowers.exists_assignsTo
  refine ⟨e, f, n', hparse, hlowers, ?_, htemps, hassigns, ?_⟩
  · intro i x
    rw [← hlowers.destination_cases, List.mem_append]
    -- an `end` writes nothing
    have hend : ¬ (i ∈ (if emitEnd then [Instruction.end_] else []) ∧ i.destination? = some x) := by
      rintro ⟨hmem, hdest⟩
      cases emitEnd with
      | true =>
        rw [List.mem_singleton.mp hmem] at hdest
        exact absurd hdest (by simp [Instruction.destination?, Instruction.destinationIndex?,
          Instruction.end_])
      | false => exact absurd hmem List.not_mem_nil
    rw [or_and_right, or_iff_left hend]
  · intro hspared
    constructor
    · intro i x hdefines hmem
      obtain ⟨k, hk, rfl⟩ := (htemps x).mp ⟨i, hdefines⟩
      exact hspared k hk hmem
    · intro i x hassign k hk heq
      have hmem := Expr.mem_identifiers_of_assigned ((hassigns x).mp ⟨i, hassign⟩)
      rw [heq] at hmem
      exact hspared k hk hmem

/-- A program that names a variable like a temporary variable. -/
def capturingSource : String := "tmp1 = 5\nb = 7 + tmp1"

def capturingTree : Expr :=
  .seq (.assign "tmp1" (.num "5")) (.assign "b" (.binary "+" (.num "7") (.var "tmp1")))

/-- The variable is written a second time, for the number on the left. -/
def capturingProgram : List Instruction :=
  [.set "tmp0" "5", .set "tmp1" "tmp0", .set "tmp1" "7", .op "add" "tmp2" ["tmp1", "tmp1"],
   .set "b" "tmp2", .end_]

theorem captured_capturingSource :
    compileToInstructions true capturingSource = .ok capturingProgram ∧
    ∃ e, parseSource capturingSource = .ok e ∧ "tmp1" ∈ e.identifiers ∧
      (∃ i, DefinesTemp e .none i "tmp1") ∧ (∃ i, AssignsTo e .none i "tmp1") ∧
      ¬ ∃ i, DefinesTemp e .none i "b" := by
  have hcompile : compileToInstructions true capturingSource = .ok capturingProgram := by
    decide +kernel
  have hparse : parseSource capturingSource = .ok capturingTree := by decide +kernel
  obtain ⟨e, f, n', hparse', hlowers, _, htemps, hassigns, _⟩ := captured_iff hcompile
  obtain rfl := Except.ok.inj (hparse.symm.trans hparse')
  have hrun : Lowers capturingTree .none ⟨some "tmp2", capturingProgram.dropLast⟩ ⟨3, 0⟩ :=
    lowers_of_run rfl
  obtain ⟨rfl, rfl⟩ := hlowers.unique hrun
  refine ⟨hcompile, capturingTree, hparse, by decide +kernel,
    (htemps "tmp1").mpr ⟨1, by decide, rfl⟩, (hassigns "tmp1").mpr (by decide +kernel), ?_⟩
  rw [htemps]
  rintro ⟨k, _, hk⟩
  have hhead := congrArg (fun s => s.toList.head?) hk
  simp [tempName] at hhead

/-- Temporary variables can have the names of variables of the program. -/
theorem temps_capture_variables :
    ¬ ∀ source program e f n', compileToInstructions true source = .ok program →
      parseSource source = .ok e → Lowers e .none f n' →
      ∀ k < n'.temps, tempName k ∉ e.identifiers := by
  intro hspared
  have hcompile : compileToInstructions true capturingSource = .ok capturingProgram := by
    decide +kernel
  have hparse : parseSource capturingSource = .ok capturingTree := by decide +kernel
  have hrun : Lowers capturingTree .none ⟨some "tmp2", capturingProgram.dropLast⟩ ⟨3, 0⟩ :=
    lowers_of_run rfl
  exact hspared _ _ _ _ _ hcompile hparse hrun 1 (by decide) (by decide +kernel)

end Mlog
