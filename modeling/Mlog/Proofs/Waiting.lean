import Mathlib.Control.Monad.Basic
import Mlog.Expr.Equality
import Mlog.Proofs.Machine
import Mlog.Proofs.Writing

/-! # Values that wait for their use

    A variable that is used as an operand is not copied: the instruction that uses it
    names it again.  So an operand can be written between its evaluation and its use.

    * `Waits`: the values that wait in the code of a node, with the code in between.
    * `Waits.mem_writtenIn`: what is written there.
    * `overwritten_iff`: which operands are written before they are used, for whole
      programs. -/

namespace Mlog

/-! ## Section 1: Values that wait for their use -/

/-- A value that has been evaluated and is used later. -/
structure Wait where
  /-- The operand that stands for the value. -/
  operand : String
  /-- The code that evaluates it. -/
  evaluated : List Instruction
  /-- The trees that have their code between evaluation and use. -/
  passed : List Expr
  /-- The numbers of the temporary variables that are taken there. -/
  temps : List Nat
  /-- All code between evaluation and use. -/
  between : List Instruction
  /-- The instruction that uses the operand. -/
  user : Instruction

/-- The numbers from `a` up to but not including `b`. -/
def tempRange (a b : Nat) : List Nat := List.range' a (b - a)

theorem mem_tempRange {a b k : Nat} : k ∈ tempRange a b ↔ a ≤ k ∧ k < b := by
  rw [tempRange, List.mem_range'_1]
  omega

theorem tempRange_append {a b c : Nat} (hab : a ≤ b) (hbc : b ≤ c) :
    tempRange a b ++ tempRange b c = tempRange a c := by
  have hlength : c - a = (b - a) + (c - b) := by omega
  have hstart : a + 1 * (b - a) = b := by omega
  rw [tempRange, tempRange, tempRange, hlength, ← List.range'_append, hstart]

abbrev LowersArgs := EachArg fun e n v n' => Lowers e n v.toFragment n'

abbrev LowersArms := EachArm fun e n v n' => Lowers e n v.toFragment n'

/-- The values that wait in the code of a node, which is lowered from the given names
    on: the operands of an operation, the address and the value that are stored, the
    arguments of a call, and the subject of a `case` at each of its arms. -/
inductive Waits : Expr → Names → Wait → Prop
  | left {op operation : String} {left right : Expr} {l r : Valued} {n₀ n₁ n₂ : Names} :
      Lowers left n₀ l.toFragment n₁ → Lowers right n₁ r.toFragment n₂ →
      binaryOperation? op = some operation →
      Waits (.binary op left right) n₀
        { operand := l.value, evaluated := l.code, passed := [right]
          temps := tempRange n₁.temps n₂.temps, between := r.code
          user := .op operation (tempName n₂.temps) [l.value, r.value] }
  | right {op operation : String} {left right : Expr} {l r : Valued} {n₀ n₁ n₂ : Names} :
      Lowers left n₀ l.toFragment n₁ → Lowers right n₁ r.toFragment n₂ →
      binaryOperation? op = some operation →
      Waits (.binary op left right) n₀
        { operand := r.value, evaluated := r.code, passed := [], temps := [], between := []
          user := .op operation (tempName n₂.temps) [l.value, r.value] }
  | address {cell : String} {address value : Expr} {a v : Valued} {n₀ n₁ n₂ : Names} :
      Lowers address n₀ a.toFragment n₁ → Lowers value n₁ v.toFragment n₂ →
      Waits (.store cell address value) n₀
        { operand := a.value, evaluated := a.code, passed := [value]
          temps := tempRange n₁.temps n₂.temps, between := v.code
          user := .write v.value cell a.value }
  | stored {cell : String} {address value : Expr} {a v : Valued} {n₀ n₁ n₂ : Names} :
      Lowers address n₀ a.toFragment n₁ → Lowers value n₁ v.toFragment n₂ →
      Waits (.store cell address value) n₀
        { operand := v.value, evaluated := v.code, passed := [], temps := [], between := []
          user := .write v.value cell a.value }
  -- a call may use its arguments by several instructions, of which some come first
  | argument {name : String} {f : Intrinsic} {earlier later : List Expr} {arg : Expr}
      {us vs : List Valued} {v : Valued} {first others : List Instruction} {user : Instruction}
      {n₀ n₁ n₂ n₃ : Names} :
      LowersArgs earlier n₀ us n₁ → Lowers arg n₁ v.toFragment n₂ → LowersArgs later n₂ vs n₃ →
      Intrinsic.ofName? name = some f → f.arity ≤ (earlier ++ arg :: later).length →
      (f.code (tempName n₃.temps) ((us ++ v :: vs).map Valued.value)).code =
        first ++ user :: others →
      v.value ∈ user.reads →
      Waits (.call name (earlier ++ arg :: later)) n₀
        { operand := v.value, evaluated := v.code, passed := later
          temps := tempRange n₂.temps n₃.temps, between := vs.flatMap Valued.code ++ first
          user := user }
  -- the arms before the one at hand have been passed, and each writes the result
  | subject {subject pattern body otherwise : Expr} {earlier later : List (Expr × Expr)}
      {s p b : Valued} {as bs : List (Valued × Valued)} {f : Fragment}
      {n₀ n₁ n₂ n₃ n₄ n₅ n₆ : Names} :
      Lowers subject n₀ s.toFragment n₁ → LowersArms earlier n₁ as n₂ →
      Lowers pattern n₂ p.toFragment n₃ → Lowers body n₃ b.toFragment n₄ →
      LowersArms later n₄ bs n₅ → Lowers otherwise n₅ f n₆ →
      Waits (.select subject (earlier ++ (pattern, body) :: later) otherwise) n₀
        { operand := s.value, evaluated := s.code
          passed := (earlier.flatMap fun arm => [arm.1, arm.2]) ++ [pattern]
          temps := tempRange n₁.temps n₃.temps ++ if as = [] then [] else [n₆.temps]
          between := armsCode s.value (tempName n₆.temps)
            (labelName (n₆.labels + (as ++ (p, b) :: bs).length)) as
            ((List.range' n₆.labels as.length).map labelName) ++ p.code
          user := .jumpNotEqual (labelName (n₆.labels + as.length)) s.value p.value }

section

variable {P : Expr → Names → Valued → Names → Prop}

theorem EachArg.append {xs ys : List Expr} {us vs : List Valued} {n n₁ n₂ : Names}
    (h : EachArg P xs n us n₁) (h' : EachArg P ys n₁ vs n₂) :
    EachArg P (xs ++ ys) n (us ++ vs) n₂ := by
  induction h with
  | nil n => exact h'
  | cons harg _ ih => exact .cons harg (ih h')

theorem EachArm.append {xs ys : List (Expr × Expr)} {as bs : List (Valued × Valued)}
    {n n₁ n₂ : Names} (h : EachArm P xs n as n₁) (h' : EachArm P ys n₁ bs n₂) :
    EachArm P (xs ++ ys) n (as ++ bs) n₂ := by
  induction h with
  | nil n => exact h'
  | cons hpattern hbody _ ih => exact .cons hpattern hbody (ih h')

end

/-- The arms before one of them, its pattern, and its jump to the next arm. -/
theorem exists_armsCode (subject result endLabel : String) (as : List (Valued × Valued))
    (p b : Valued) (bs : List (Valued × Valued)) (labels : List String) (next : String)
    (labels' : List String) (h : labels.length = as.length) :
    ∃ tail, armsCode subject result endLabel (as ++ (p, b) :: bs) (labels ++ next :: labels') =
      armsCode subject result endLabel as labels ++ p.code ++
        .jumpNotEqual next subject p.value :: tail := by
  induction as generalizing labels with
  | nil =>
    obtain rfl := List.length_eq_zero_iff.mp h
    exact ⟨b.code ++ [.set result b.value, .jumpAlways endLabel, .label next] ++
      armsCode subject result endLabel bs labels', by simp [armsCode, armCode]⟩
  | cons arm as ih =>
    obtain ⟨first, labels, rfl⟩ := List.exists_cons_of_length_eq_add_one h
    obtain ⟨tail, htail⟩ := ih labels (Nat.succ.inj h)
    exact ⟨tail, by simp only [List.cons_append, armsCode, htail, List.append_assoc]⟩

/-- The code of a value that waits, the code after it and its user stand one after
    another in the code of the node. -/
theorem Waits.infix_code {node : Expr} {n n' : Names} {f : Fragment} {w : Wait}
    (h : Waits node n w) (hnode : Lowers node n f n') :
    w.evaluated ++ w.between ++ [w.user] <:+: f.code := by
  cases h with
  | left hleft hright hop =>
    obtain ⟨rfl, _⟩ := hnode.unique (.binary hleft hright hop)
    exact List.infix_refl _
  | @right op operation left right l r n₀ n₁ n₂ hleft hright hop =>
    obtain ⟨rfl, _⟩ := hnode.unique (.binary hleft hright hop)
    exact ⟨l.code, [], by simp⟩
  | address haddress hvalue =>
    obtain ⟨rfl, _⟩ := hnode.unique (.store haddress hvalue)
    exact List.infix_refl _
  | @stored cell address value a v n₀ n₁ n₂ haddress hvalue =>
    obtain ⟨rfl, _⟩ := hnode.unique (.store haddress hvalue)
    exact ⟨a.code, [], by simp⟩
  | @argument name f earlier later arg us vs v first others user n₀ n₁ n₂ n₃ hearlier harg hlater
      hname harity hcode _ =>
    have hargs := hearlier.append (.cons harg hlater)
    obtain ⟨rfl, _⟩ := hnode.unique (.call hargs hname harity)
    refine ⟨us.flatMap Valued.code, others, ?_⟩
    rw [hcode]
    simp
  | @subject subject pattern body otherwise earlier later s p b as bs f n₀ n₁ n₂ n₃ n₄ n₅ n₆
      hsubject hearlier hpattern hbody hlater hotherwise =>
    have harms := hearlier.append (.cons hpattern hbody hlater)
    obtain ⟨rfl, _⟩ := hnode.unique (.select hsubject harms hotherwise)
    -- the labels of the arms that come first, and those of the arm at hand and the others
    have hlabels : (List.range' n₆.labels (as ++ (p, b) :: bs).length).map labelName =
        (List.range' n₆.labels as.length).map labelName ++
          labelName (n₆.labels + as.length) ::
            (List.range' (n₆.labels + as.length + 1) bs.length).map labelName := by
      have hlength : (as ++ (p, b) :: bs).length = as.length + (bs.length + 1) := by simp
      rw [hlength, ← List.range'_append, Nat.one_mul, List.map_append, List.range'_succ,
        List.map_cons]
    obtain ⟨tail, htail⟩ := exists_armsCode s.value (tempName n₆.temps)
      (labelName (n₆.labels + (as ++ (p, b) :: bs).length)) as p b bs
      ((List.range' n₆.labels as.length).map labelName) (labelName (n₆.labels + as.length))
      ((List.range' (n₆.labels + as.length + 1) bs.length).map labelName) (by simp)
    refine ⟨[], tail ++ f.code ++ [.set (tempName n₆.temps) f.valueOrNull,
      .label (labelName (n₆.labels + (as ++ (p, b) :: bs).length))], ?_⟩
    rw [selectCode, hlabels, htail]
    simp

theorem Waits.operand_mem_reads {node : Expr} {n : Names} {w : Wait} (h : Waits node n w) :
    w.operand ∈ w.user.reads := by
  cases h with
  | left | right =>
    show _ ∈ [_, _, _]
    simp
  | address | stored =>
    show _ ∈ [_, _, _]
    simp
  | argument _ _ _ _ _ _ hreads => exact hreads
  | subject =>
    show _ ∈ [_, _, _, _]
    simp

/-! ## Section 2: What is written in between -/

section

variable {x : String}

/-- What the code of trees that are lowered one after another writes. -/
theorem LowersAll.mem_writtenIn {es : List Expr} {fs : List Fragment} {n n' : Names}
    (h : LowersAll es n fs n') :
    (∃ f ∈ fs, x ∈ writtenIn f.code) ↔
      (∃ e ∈ es, x ∈ e.assignedNames) ∨ ∃ k ∈ tempRange n.temps n'.temps, x = tempName k := by
  induction h with
  | nil n => simp [tempRange]
  | @cons e es f fs n₀ n₁ n₂ he hes ih =>
    have hle := he.names_le.temps
    have hle' := hes.names_le.temps
    -- the numbers of the first tree and of the others make up those of all trees
    have hsplit : (∃ k ∈ tempRange n₀.temps n₂.temps, x = tempName k) ↔
        (∃ k ∈ tempRange n₀.temps n₁.temps, x = tempName k) ∨
          ∃ k ∈ tempRange n₁.temps n₂.temps, x = tempName k := by
      simp only [← tempRange_append hle hle', List.mem_append, or_and_right, exists_or]
    have hfirst : x ∈ writtenIn f.code ↔
        x ∈ e.assignedNames ∨ ∃ k ∈ tempRange n₀.temps n₁.temps, x = tempName k := by
      simp only [he.mem_writtenIn, mem_tempRange, and_assoc]
    simp only [List.mem_cons, exists_eq_or_imp]
    rw [ih, hfirst, hsplit]
    exact or_or_or_comm

/-- What code writes that is woven from trees and added instructions. -/
theorem Woven.mem_writtenIn {es : List Expr} {fs : List Fragment} {n n' : Names}
    {own code : List Instruction} (h : Woven fs own code) (hparts : LowersAll es n fs n') :
    x ∈ writtenIn code ↔
      (∃ e ∈ es, x ∈ e.assignedNames) ∨ (∃ k ∈ tempRange n.temps n'.temps, x = tempName k) ∨
        x ∈ writtenIn own := by
  have hwritten := (h.perm.filterMap Instruction.destination?).mem_iff (a := x)
  rw [List.filterMap_append, List.mem_append, List.filterMap_flatMap, List.mem_flatMap] at hwritten
  rw [← or_assoc, ← hparts.mem_writtenIn]
  exact hwritten

/-- The instructions of a call before its last one write nothing. -/
theorem Intrinsic.writtenIn_first (f : Intrinsic) {result : String} {args : List String}
    {first others : List Instruction} {user : Instruction}
    (h : (f.code result args).code = first ++ user :: others) : writtenIn first = [] := by
  have hprints : ∀ make : String → Instruction, (∀ arg, (make arg).destination? = none) →
      args.map make = first ++ user :: others → writtenIn first = [] := by
    intro make hmake heq
    apply List.filterMap_eq_nil_iff.mpr
    intro i hi
    have hmem : i ∈ args.map make := by
      rw [heq]
      exact List.mem_append_left _ hi
    obtain ⟨arg, _, rfl⟩ := List.mem_map.mp hmem
    exact hmake arg
  cases f with
  | print => exact hprints .print (fun _ => rfl) h
  | printflush => exact hprints .printflush (fun _ => rfl) h
  | _ =>
    -- there is one instruction only, so none comes before it
    rcases List.singleton_eq_append_iff.mp h with ⟨rfl, _⟩ | ⟨_, hnil⟩
    · rfl
    · exact absurd hnil (by simp)

/-- Each arm writes the result of the `case`. -/
theorem mem_writtenIn_armsCode {subject result endLabel : String} {as : List (Valued × Valued)}
    {labels : List String} (hlength : labels.length = as.length) :
    x ∈ writtenIn (armsCode subject result endLabel (as.map bareArm) labels) ↔
      as ≠ [] ∧ x = result := by
  rw [mem_writtenIn, ← writersIn_ne_nil, writersIn_armsCode as hlength]
  by_cases hx : result = x
  · simp [hx]
  · simp [hx, Ne.symm hx]

/-- What is written between the evaluation of a value and its use: the names that the
    trees in between assign to, and the temporary variables taken there. -/
theorem Waits.mem_writtenIn {node : Expr} {n : Names} {w : Wait} (h : Waits node n w) :
    x ∈ writtenIn w.between ↔
      (∃ e ∈ w.passed, x ∈ e.assignedNames) ∨ ∃ k ∈ w.temps, x = tempName k := by
  cases h with
  | left _ hright _ =>
    simpa [mem_tempRange, and_assoc, Valued.toFragment] using hright.mem_writtenIn (x := x)
  | address _ hvalue =>
    simpa [mem_tempRange, and_assoc, Valued.toFragment] using hvalue.mem_writtenIn (x := x)
  -- the value is used at once
  | right | stored => simp [writtenIn]
  -- the later arguments, and the instructions of the call before the one that reads it
  | @argument name f earlier later arg us vs v first others user n₀ n₁ n₂ n₃ _ _ hlater _ _
      hcode _ =>
    have hwritten := (woven_inTurn (vs.map Valued.toFragment) first).mem_writtenIn (x := x)
      (.ofArgs hlater)
    rw [flatMap_code_args, f.writtenIn_first hcode] at hwritten
    simpa using hwritten
  -- the arms before the pattern, which leave their value in the result, and the pattern
  | @subject subject pattern body otherwise earlier later s p b as bs f n₀ n₁ n₂ n₃ n₄ n₅ n₆ _
      hearlier hpattern _ _ _ =>
    have harms := woven_armsCode s.value (tempName n₆.temps)
      (labelName (n₆.labels + (as ++ (p, b) :: bs).length)) as
      ((List.range' n₆.labels as.length).map labelName) (by simp)
    have hparts := (LowersAll.ofArms hearlier).append (.cons hpattern (.nil n₃))
    have hwritten := (harms.append (Woven.ofParts [p.toFragment])).mem_writtenIn (x := x) hparts
    rw [List.append_nil, mem_writtenIn_armsCode (by simp)] at hwritten
    by_cases has : as = []
    · simpa [has, Valued.toFragment] using hwritten
    · simpa [has, Valued.toFragment, or_and_right, exists_or] using hwritten

end

/-! ## Section 3: Operands that are not written keep their value -/

namespace Machine

variable {V D : Type} (m : Machine V D) {program code : List Instruction} {x : String}

/-- One instruction changes no operand but the one that it writes. -/
theorem lookup_exec {rest : List Instruction} {i : Instruction} {s : State V D} {c : Config V D}
    (hexec : m.exec program i rest s = some c) (hx : i.destination? ≠ some x) :
    m.lookup c.state x = m.lookup s x := by
  have hset : ∀ (t : State V D) (dest : String) (v : V), dest ≠ x →
      m.lookup (t.set dest v) x = m.lookup t x := by
    intro t dest v hne
    unfold lookup
    rw [State.set_store_of_ne t (Ne.symm hne)]
  have hdevice : ∀ (t : State V D) (d : D), m.lookup (t.withDevice d) x = m.lookup t x :=
    fun _ _ => rfl
  -- an instruction stores a value in its destination, or changes the device only
  unfold exec at hexec
  split at hexec <;> cases hexec <;>
    simp_all [Instruction.destination?, Instruction.destinationIndex?]

/-- The machine goes from one configuration to another by instructions from the code
    only. -/
inductive RunsIn (program code : List Instruction) : Config V D → Config V D → Prop
  | refl (c : Config V D) : RunsIn program code c c
  | step {i : Instruction} {rest : List Instruction} {s : State V D} {c d : Config V D} :
      i ∈ code → m.step program ⟨i :: rest, s⟩ = some c → RunsIn program code c d →
      RunsIn program code ⟨i :: rest, s⟩ d

/-- Code that does not write an operand leaves its value as it is. -/
theorem RunsIn.lookup_eq {c d : Config V D} (h : m.RunsIn program code c d)
    (hx : x ∉ writtenIn code) : m.lookup d.state x = m.lookup c.state x := by
  induction h with
  | refl c => rfl
  | @step i rest s c d hi hstep _ ih =>
    have hne : i.destination? ≠ some x := fun hdest => hx (mem_writtenIn.mpr ⟨i, hi, hdest⟩)
    rw [ih, m.lookup_exec hstep hne]

end Machine

/-! ## Section 4: Programs of source texts -/

/-- In the program of a source text, the operands of an operation, the address and the
    value that are stored, the arguments of a call and the subject of a `case` are
    evaluated and used by an instruction further on.  The code in between writes such an
    operand exactly if a tree in between assigns to it, or if it has the name of a
    temporary variable that is taken there.  Otherwise the operand has the same value
    when it is used as when it was evaluated, on every machine and every path. -/
theorem overwritten_iff {emitEnd : Bool} {source : String} {program : List Instruction}
    (h : compileToInstructions emitEnd source = .ok program) :
    ∃ e, parseSource source = .ok e ∧
      ∀ node n g n' w, LowersWithin node n g n' e .none → Waits node n w →
        w.evaluated ++ w.between ++ [w.user] <:+: program ∧ w.operand ∈ w.user.reads ∧
        (w.operand ∈ writtenIn w.between ↔
          (∃ part ∈ w.passed, w.operand ∈ part.assignedNames) ∨
            ∃ k ∈ w.temps, w.operand = tempName k) ∧
        (w.operand ∉ writtenIn w.between →
          ∀ (V D : Type) (m : Machine V D) (c d : Config V D), m.RunsIn program w.between c d →
            m.lookup d.state w.operand = m.lookup c.state w.operand) := by
  obtain ⟨e, f, n', hparse, hlowers, rfl⟩ := lowers_of_compileToInstructions h
  refine ⟨e, hparse, ?_⟩
  intro node n g n' w hwithin hwaits
  refine ⟨?_, hwaits.operand_mem_reads, hwaits.mem_writtenIn, ?_⟩
  · obtain ⟨_, _, before, after, hcode, _⟩ := hwithin.enclosed hlowers
    have hnode := hwaits.infix_code hwithin.lowers
    rw [hcode]
    exact hnode.trans ⟨before, after ++ if emitEnd then [.end_] else [], by simp⟩
  · intro hspared V D m c d hruns
    exact hruns.lookup_eq m hspared

/-- An operand is assigned to before it is used; then the subject of a `case` passes an
    arm that leaves it alone. -/
def waitingSource : String := "b = a + (a = 1)\ncase c { when 2 { d = 3 } when 4 { 5 } }"

def waitingSum : Expr := .binary "+" (.var "a") (.assign "a" (.num "1"))

def waitingCase : Expr :=
  .select (.var "c") [(.num "2", .assign "d" (.num "3")), (.num "4", .num "5")] .nop

def waitingTree : Expr := .seq (.assign "b" waitingSum) waitingCase

def waitingProgram : List Instruction :=
  [.set "tmp0" "1", .set "a" "tmp0", .op "add" "tmp1" ["a", "tmp0"], .set "b" "tmp1",
   .set "tmp2" "2", .jumpNotEqual "label0" "c" "tmp2", .set "tmp3" "3", .set "d" "tmp3",
   .set "tmp6" "tmp3", .jumpAlways "label2", .label "label0", .set "tmp4" "4",
   .jumpNotEqual "label1" "c" "tmp4", .set "tmp5" "5", .set "tmp6" "tmp5", .jumpAlways "label2",
   .label "label1", .set "tmp6" "null", .label "label2", .end_]

/-- The left operand of the sum waits while the right one is evaluated. -/
theorem waits_waitingSum : ∃ w, Waits waitingSum .none w ∧ w.operand = "a" ∧
    w.between = [.set "tmp0" "1", .set "a" "tmp0"] := by
  have hleft : Lowers (.var "a") .none (Valued.mk "a" []).toFragment .none := lowers_of_run rfl
  have hright : Lowers (.assign "a" (.num "1")) .none
      (Valued.mk "tmp0" [.set "tmp0" "1", .set "a" "tmp0"]).toFragment ⟨1, 0⟩ := lowers_of_run rfl
  exact ⟨_, .left hleft hright rfl, rfl, rfl⟩

/-- The subject waits at the second arm of the `case`. -/
theorem waits_waitingCase : ∃ w, Waits waitingCase ⟨2, 0⟩ w ∧ w.operand = "c" ∧
    w.between = (waitingProgram.drop 4).take 8 := by
  have hsubject : Lowers (.var "c") ⟨2, 0⟩ (Valued.mk "c" []).toFragment ⟨2, 0⟩ := lowers_of_run rfl
  have hfirst : Lowers (.num "2") ⟨2, 0⟩ (Valued.mk "tmp2" [.set "tmp2" "2"]).toFragment ⟨3, 0⟩ :=
    lowers_of_run rfl
  have hassign : Lowers (.assign "d" (.num "3")) ⟨3, 0⟩
      (Valued.mk "tmp3" [.set "tmp3" "3", .set "d" "tmp3"]).toFragment ⟨4, 0⟩ := lowers_of_run rfl
  have hearlier : LowersArms _ _ _ _ := .cons hfirst hassign (.nil _)
  have hpattern : Lowers (.num "4") ⟨4, 0⟩ (Valued.mk "tmp4" [.set "tmp4" "4"]).toFragment ⟨5, 0⟩ :=
    lowers_of_run rfl
  have hbody : Lowers (.num "5") ⟨5, 0⟩ (Valued.mk "tmp5" [.set "tmp5" "5"]).toFragment ⟨6, 0⟩ :=
    lowers_of_run rfl
  have hotherwise : Lowers .nop ⟨6, 0⟩ .empty ⟨6, 0⟩ := lowers_of_run rfl
  exact ⟨_, .subject hsubject hearlier hpattern hbody (.nil _) hotherwise, rfl, by decide +kernel⟩

theorem overwritten_waitingSource :
    compileToInstructions true waitingSource = .ok waitingProgram ∧
    (∃ w, Waits waitingSum .none w ∧ w.operand = "a" ∧
      ∃ part ∈ w.passed, "a" ∈ part.assignedNames) ∧
    ∃ w, Waits waitingCase ⟨2, 0⟩ w ∧ w.operand = "c" ∧ w.between.length = 8 ∧
      ∀ (V D : Type) (m : Machine V D) (c d : Config V D),
        m.RunsIn waitingProgram w.between c d → m.lookup d.state "c" = m.lookup c.state "c" := by
  have hcompile : compileToInstructions true waitingSource = .ok waitingProgram := by
    decide +kernel
  have hparse : parseSource waitingSource = .ok waitingTree := by decide +kernel
  obtain ⟨e, hparse', hwaits⟩ := overwritten_iff hcompile
  obtain rfl := Except.ok.inj (hparse.symm.trans hparse')
  have hassign : Lowers (.assign "b" waitingSum) .none
      ⟨some "tmp1", waitingProgram.take 4⟩ ⟨2, 0⟩ := lowers_of_run rfl
  -- where the two nodes stand in the tree, and the names given out before them
  have hsum : LowersWithin waitingSum .none ⟨some "tmp1", waitingProgram.take 3⟩ ⟨2, 0⟩
      waitingTree .none :=
    .part rfl (.nil _) (.part rfl (.nil _) (.self (lowers_of_run rfl)))
  have hcase : LowersWithin waitingCase ⟨2, 0⟩ ⟨some "tmp6", (waitingProgram.drop 4).dropLast⟩
      ⟨7, 3⟩ waitingTree .none :=
    .part rfl (.cons hassign (.nil _)) (.self (lowers_of_run rfl))
  obtain ⟨w, hw, hoperand, hbetween⟩ := waits_waitingSum
  obtain ⟨v, hv, hoperand', hbetween'⟩ := waits_waitingCase
  obtain ⟨_, _, hiff, _⟩ := hwaits _ _ _ _ w hsum hw
  obtain ⟨_, _, _, hkeeps⟩ := hwaits _ _ _ _ v hcase hv
  rw [hoperand, hbetween] at hiff
  rw [hoperand', hbetween'] at hkeeps
  refine ⟨hcompile, ⟨w, hw, hoperand, ?_⟩, v, hv, hoperand', by rw [hbetween']; rfl, ?_⟩
  · rcases hiff.mp (by decide +kernel) with hassigned | ⟨k, _, hk⟩
    · exact hassigned
    -- `a` is not the name of a temporary variable
    · have hhead := congrArg (fun s => s.toList.head?) hk
      simp [tempName] at hhead
  · rw [hbetween']
    exact hkeeps (by decide +kernel)

/-- The code between the evaluation of an operand and its use can write it. -/
theorem operands_overwritten :
    ¬ ∀ source program e node n g n' w, compileToInstructions true source = .ok program →
      parseSource source = .ok e → LowersWithin node n g n' e .none → Waits node n w →
      ∀ i ∈ w.between, i.destination? ≠ some w.operand := by
  intro hspared
  have hcompile : compileToInstructions true "b = a + (a = 1)" =
      .ok (waitingProgram.take 4 ++ [.end_]) := by decide +kernel
  have hparse : parseSource "b = a + (a = 1)" = .ok (.assign "b" waitingSum) := by decide +kernel
  have hsum : LowersWithin waitingSum .none ⟨some "tmp1", waitingProgram.take 3⟩ ⟨2, 0⟩
      (.assign "b" waitingSum) .none :=
    .part rfl (.nil _) (.self (lowers_of_run rfl))
  obtain ⟨w, hw, hoperand, hbetween⟩ := waits_waitingSum
  have hnone := hspared _ _ _ _ _ _ _ w hcompile hparse hsum hw
  rw [hoperand, hbetween] at hnone
  exact hnone (.set "a" "tmp0") (by simp) rfl

end Mlog
