import Mlog.Proofs.Holding
import Mlog.Proofs.Violations

/-! # What a node adds to the code of its parts

    The code of a tree consists of the code of its parts and of a few
    instructions that the node adds around and between them.  `Glued` lists these
    instructions for each kind of node, in the order in which they stand when the
    parts have no code of their own.

    * `Lowers.woven`: the parts of a node are lowered one after another, and its
      code is woven from theirs and from what the node adds.
    * `Lowers.origin`: each operand in the code of a tree is spelled by a node of
      the tree, or is a name that was given out for the tree, or is a word of the
      instruction.

    What holds of each instruction, and how many there are of a kind, can be read
    off the added ones (`Lowers.glued`).  `Woven` says in what order instructions
    stand, but not where between two parts. -/

namespace Mlog

/-! ## Section 1: Parts one after another -/

theorem EachArm.length_eq {P : Expr → Names → Valued → Names → Prop} {arms : List (Expr × Expr)}
    {vs : List (Valued × Valued)} {n n' : Names} (h : EachArm P arms n vs n') :
    vs.length = arms.length := by
  induction h with
  | nil n => rfl
  | cons _ _ _ ih => simp [ih]

theorem EachArg.forall_mem {P : Expr → Names → Valued → Names → Prop} {Q : Valued → Prop}
    {args : List Expr} {vs : List Valued} {n n' : Names} (h : EachArg P args n vs n')
    (hQ : ∀ arg ∈ args, ∀ n v n', P arg n v n' → Q v) : ∀ v ∈ vs, Q v := by
  induction h with
  | nil n => exact fun v hv => absurd hv List.not_mem_nil
  | cons harg _ ih =>
    obtain ⟨hfirst, hothers⟩ := List.forall_mem_cons.mp hQ
    exact List.forall_mem_cons.mpr ⟨hfirst _ _ _ harg, ih hothers⟩

theorem EachArm.forall_mem {P : Expr → Names → Valued → Names → Prop} {Q : Valued → Prop}
    {arms : List (Expr × Expr)} {as : List (Valued × Valued)} {n n' : Names}
    (h : EachArm P arms n as n')
    (hQ : ∀ arm ∈ arms, (∀ n v n', P arm.1 n v n' → Q v) ∧ ∀ n v n', P arm.2 n v n' → Q v) :
    ∀ arm ∈ as, Q arm.1 ∧ Q arm.2 := by
  induction h with
  | nil n => exact fun arm harm => absurd harm List.not_mem_nil
  | cons hpattern hbody _ ih =>
    obtain ⟨hfirst, hothers⟩ := List.forall_mem_cons.mp hQ
    exact List.forall_mem_cons.mpr
      ⟨⟨hfirst.1 _ _ _ hpattern, hfirst.2 _ _ _ hbody⟩, ih hothers⟩

/-- The trees are lowered one after another. -/
inductive LowersAll : List Expr → Names → List Fragment → Names → Prop
  | nil (n) : LowersAll [] n [] n
  | cons {e es f fs n₀ n₁ n₂} : Lowers e n₀ f n₁ → LowersAll es n₁ fs n₂ →
      LowersAll (e :: es) n₀ (f :: fs) n₂

namespace LowersAll

variable {es es' : List Expr} {fs fs' : List Fragment} {n n' n'' : Names}

theorem append (h : LowersAll es n fs n') (h' : LowersAll es' n' fs' n'') :
    LowersAll (es ++ es') n (fs ++ fs') n'' := by
  induction h with
  | nil n => exact h'
  | cons he _ ih => exact .cons he (ih h')

theorem names_le (h : LowersAll es n fs n') : n.Le n' := by
  induction h with
  | nil n => exact .refl n
  | cons he _ ih => exact he.names_le.trans ih

/-- Where the code of one of the trees comes from. -/
theorem exists_of_mem (h : LowersAll es n fs n') {f : Fragment} (hf : f ∈ fs) :
    ∃ e ∈ es, ∃ m m' : Names, n.Le m ∧ Lowers e m f m' ∧ m'.Le n' := by
  induction h with
  | nil n => exact absurd hf List.not_mem_nil
  | @cons e es g fs n₀ n₁ n₂ he hes ih =>
    rcases List.mem_cons.mp hf with rfl | hf
    · exact ⟨e, List.mem_cons_self, n₀, n₁, .refl n₀, he, hes.names_le⟩
    · obtain ⟨e', he', m, m', hm, hlowers, hm'⟩ := ih hf
      exact ⟨e', List.mem_cons_of_mem _ he', m, m', he.names_le.trans hm, hlowers, hm'⟩

theorem ofArgs {args : List Expr} {vs : List Valued}
    (h : EachArg (fun e n v n' => Lowers e n v.toFragment n') args n vs n') :
    LowersAll args n (vs.map Valued.toFragment) n' := by
  induction h with
  | nil n => exact .nil n
  | cons harg _ ih => exact .cons harg ih

theorem ofArms {arms : List (Expr × Expr)} {as : List (Valued × Valued)}
    (h : EachArm (fun e n v n' => Lowers e n v.toFragment n') arms n as n') :
    LowersAll (arms.flatMap fun arm => [arm.1, arm.2]) n
      (as.flatMap fun arm => [arm.1.toFragment, arm.2.toFragment]) n' := by
  induction h with
  | nil n => exact .nil n
  | cons hpattern hbody _ ih => exact .cons hpattern (.cons hbody ih)

end LowersAll

/-- The program of a tree is its code and an `end`. -/
theorem lowers_of_generate {e : Expr} {program : List Instruction} (h : generate e = .ok program) :
    ∃ f n', Lowers e .none f n' ∧ program = f.code ++ [.end_] := by
  unfold generate at h
  rcases hrun : (lower e).runFrom .none with ⟨error | f, n'⟩
  · rw [hrun] at h
    exact absurd h (by simp [Except.map])
  · rw [hrun] at h
    exact ⟨f, n', lowers_of_run hrun, (Except.ok.inj h).symm⟩

/-! ## Section 2: What a node adds -/

/-- A value without the code that computes it. -/
def Valued.bare (v : Valued) : Valued := ⟨v.value, []⟩

/-- A value, if there is one, without the code that computes it. -/
def Fragment.bare (f : Fragment) : Fragment := ⟨f.value, []⟩

@[simp] theorem Valued.bare_value (v : Valued) : v.bare.value = v.value := rfl

@[simp] theorem Valued.bare_code (v : Valued) : v.bare.code = [] := rfl

@[simp] theorem Fragment.bare_code (f : Fragment) : f.bare.code = [] := rfl

@[simp] theorem Fragment.valueOrNull_bare (f : Fragment) : f.bare.valueOrNull = f.valueOrNull := rfl

/-- The values of an arm without the code that computes them. -/
def bareArm (arm : Valued × Valued) : Valued × Valued := (arm.1.bare, arm.2.bare)

/-- What a node adds, given the fragments of its parts and the names given out
    before: its own instructions, its value, and the names given out after. -/
inductive Glued : Expr → Names → List Fragment → List Instruction → Option String → Names → Prop
  | null (n) : Glued .null n [] [] (some "null") n
  | bool (value n) : Glued (.bool value) n [] [] (some (if value then "true" else "false")) n
  | num (literal n) :
      Glued (.num literal) n [] [.set (tempName n.temps) literal] (some (tempName n.temps))
        { n with temps := n.temps + 1 }
  | str (text n) :
      Glued (.str text) n [] [.set (tempName n.temps) (Text.quoted text)] (some (tempName n.temps))
        { n with temps := n.temps + 1 }
  | var (name n) : Glued (.var name) n [] [] (some name) n
  | builtin (name n) : Glued (.builtin name) n [] [] (some ("@" ++ name)) n
  | seq (rest last f g n) : Glued (.seq rest last) n [f, g] [] g.value n
  | branch (cond yes no) (c y : Valued) (f : Fragment) (n : Names) :
      Glued (.branch cond yes no) n [c.toFragment, y.toFragment, f]
        (branchCode c.bare y.bare f.bare (tempName n.temps) (labelName n.labels)
          (labelName (n.labels + 1)))
        (some (tempName n.temps)) ⟨n.temps + 1, n.labels + 2⟩
  | loop (cond body) (c : Valued) (f : Fragment) (n : Names) :
      Glued (.loop cond body) n [c.toFragment, f]
        (loopCode c.bare f.bare (labelName n.labels) (labelName (n.labels + 1))) f.value
        { n with labels := n.labels + 2 }
  | select (subject arms otherwise) (s : Valued) (as : List (Valued × Valued)) (f : Fragment)
      (n : Names) : as.length = arms.length →
      Glued (.select subject arms otherwise) n
        (s.toFragment ::
          ((as.flatMap fun arm => [arm.1.toFragment, arm.2.toFragment]) ++ [f]))
        (selectCode s.bare (as.map bareArm) f.bare (tempName n.temps)
          ((List.range' n.labels as.length).map labelName) (labelName (n.labels + as.length)))
        (some (tempName n.temps)) ⟨n.temps + 1, n.labels + as.length + 1⟩
  | assign (name value) (v : Valued) (n : Names) :
      Glued (.assign name value) n [v.toFragment] [.set name v.value] (some v.value) n
  | assignBuiltin (name value f n) :
      Glued (.assignBuiltin name value) n [f] [] (some ("@" ++ name)) n
  | load (cell address) (a : Valued) (n : Names) :
      Glued (.load cell address) n [a.toFragment] [.read (tempName n.temps) cell a.value]
        (some (tempName n.temps)) { n with temps := n.temps + 1 }
  | store (cell address value) (a v : Valued) (n : Names) :
      Glued (.store cell address value) n [a.toFragment, v.toFragment] [.write v.value cell a.value]
        (some v.value) n
  | control (property target value) (v : Valued) (n : Names) :
      Glued (.control property target value) n [v.toFragment] [.control property target v.value]
        (some v.value) n
  | sensor (target name n) :
      Glued (.sensor target name) n [] [.sensor (tempName n.temps) target name]
        (some (tempName n.temps)) { n with temps := n.temps + 1 }
  | unary {op operation} (operand) (v : Valued) (n : Names) :
      unaryOperation? op = some operation →
      Glued (.unary op operand) n [v.toFragment] [.op operation (tempName n.temps) [v.value]]
        (some (tempName n.temps)) { n with temps := n.temps + 1 }
  | binary {op operation} (left right) (l r : Valued) (n : Names) :
      binaryOperation? op = some operation →
      Glued (.binary op left right) n [l.toFragment, r.toFragment]
        [.op operation (tempName n.temps) [l.value, r.value]]
        (some (tempName n.temps)) { n with temps := n.temps + 1 }
  | call {name f} (args) (vs : List Valued) (n : Names) :
      Intrinsic.ofName? name = some f → f.arity ≤ vs.length →
      Glued (.call name args) n (vs.map Valued.toFragment)
        (f.code (tempName n.temps) (vs.map Valued.value)).code
        (some (f.code (tempName n.temps) (vs.map Valued.value)).value)
        { n with temps := n.temps + f.temps }
  | comment (text n) : Glued (.comment text) n [] [] none n
  | nop (n) : Glued .nop n [] [] none n

/-! ## Section 3: Code is parts and glue -/

/-- The code is that of the fragments and of the added instructions, both in
    their order, with the added ones before, between and after the fragments. -/
inductive Woven : List Fragment → List Instruction → List Instruction → Prop
  | nil : Woven [] [] []
  | own {fs own code} (i : Instruction) : Woven fs own code → Woven fs (i :: own) (i :: code)
  | part {fs own code} (f : Fragment) : Woven fs own code → Woven (f :: fs) own (f.code ++ code)

namespace Woven

variable {fs gs : List Fragment} {own own' code code' : List Instruction}

theorem append (h : Woven fs own code) (h' : Woven gs own' code') :
    Woven (fs ++ gs) (own ++ own') (code ++ code') := by
  induction h with
  | nil => exact h'
  | own i _ ih => exact ih.own i
  | part f _ ih =>
    rw [List.append_assoc]
    exact ih.part f

/-- Added instructions alone. -/
theorem ofOwn (own : List Instruction) : Woven [] own own := by
  induction own with
  | nil => exact .nil
  | cons i own ih => exact ih.own i

/-- Fragments alone. -/
theorem ofParts (fs : List Fragment) : Woven fs [] (fs.flatMap Fragment.code) := by
  induction fs with
  | nil => exact .nil
  | cons f fs ih => exact ih.part f

theorem perm (h : Woven fs own code) : code.Perm (fs.flatMap Fragment.code ++ own) := by
  induction h with
  | nil => exact .nil
  | own i _ ih => exact (ih.cons i).trans List.perm_middle.symm
  | part f _ ih =>
    rw [List.flatMap_cons, List.append_assoc]
    exact ih.append_left f.code

/-- The code around one of the fragments is woven from the others. -/
theorem around {g : Fragment} (h : Woven (fs ++ g :: gs) own code) :
    ∃ own₁ own₂ before after, own = own₁ ++ own₂ ∧ code = before ++ g.code ++ after ∧
      Woven fs own₁ before ∧ Woven gs own₂ after := by
  generalize hall : fs ++ g :: gs = all at h
  induction h generalizing fs with
  | nil => exact absurd hall (by simp)
  | own i _ ih =>
    obtain ⟨own₁, own₂, before, after, rfl, rfl, hbefore, hafter⟩ := ih hall
    exact ⟨i :: own₁, own₂, i :: before, after, rfl, rfl, hbefore.own i, hafter⟩
  | @part hs own code f hrest ih =>
    cases fs with
    | nil =>
      -- the fragment is the next one, so nothing is left to come before it
      obtain ⟨rfl, rfl⟩ := List.cons.inj hall
      exact ⟨[], own, [], code, rfl, rfl, .nil, hrest⟩
    | cons f' fs =>
      obtain ⟨rfl, htail⟩ := List.cons.inj hall
      obtain ⟨own₁, own₂, before, after, rfl, rfl, hbefore, hafter⟩ := ih htail
      exact ⟨own₁, own₂, f'.code ++ before, after, rfl, by simp, hbefore.part f', hafter⟩

end Woven

theorem woven_branchCode (c y : Valued) (f : Fragment) (result elseLabel endLabel : String) :
    Woven [c.toFragment, y.toFragment, f]
      (branchCode c.bare y.bare f.bare result elseLabel endLabel)
      (branchCode c y f result elseLabel endLabel) := by
  have hend := (Woven.ofOwn [.set result f.valueOrNull, .label endLabel]).part f
  have hyes := ((((hend.own (.label elseLabel)).own (.jumpAlways endLabel)).own
    (.set result y.value)).part y.toFragment)
  have hall := (hyes.own (.jumpNotEqual elseLabel c.value "true")).part c.toFragment
  simpa [branchCode, Valued.toFragment] using hall

theorem woven_loopCode (c : Valued) (f : Fragment) (condLabel doneLabel : String) :
    Woven [c.toFragment, f] (loopCode c.bare f.bare condLabel doneLabel)
      (loopCode c f condLabel doneLabel) := by
  have hbody := (Woven.ofOwn [.jumpAlways condLabel, .label doneLabel]).part f
  have hcond := (hbody.own (.jumpNotEqual doneLabel c.value "true")).part c.toFragment
  simpa [loopCode, Valued.toFragment] using hcond.own (.label condLabel)

theorem woven_armCode (subject result next endLabel : String) (p b : Valued) :
    Woven [p.toFragment, b.toFragment] (armCode subject p.bare b.bare result next endLabel)
      (armCode subject p b result next endLabel) := by
  have hbody := (Woven.ofOwn [.set result b.value, .jumpAlways endLabel, .label next]).part
    b.toFragment
  have hpattern := (hbody.own (.jumpNotEqual next subject p.value)).part p.toFragment
  simpa [armCode, Valued.toFragment] using hpattern

theorem woven_armsCode (subject result endLabel : String) (as : List (Valued × Valued))
    (labels : List String) (hlength : labels.length = as.length) :
    Woven (as.flatMap fun arm => [arm.1.toFragment, arm.2.toFragment])
      (armsCode subject result endLabel (as.map bareArm) labels)
      (armsCode subject result endLabel as labels) := by
  induction as generalizing labels with
  | nil => exact .nil
  | cons arm as ih =>
    obtain ⟨next, labels, rfl⟩ := List.exists_cons_of_length_eq_add_one hlength
    have hothers := ih labels (Nat.succ.inj hlength)
    exact (woven_armCode subject result next endLabel arm.1 arm.2).append hothers

theorem woven_selectCode (s : Valued) (as : List (Valued × Valued)) (f : Fragment)
    (result endLabel : String) (labels : List String) (hlength : labels.length = as.length) :
    Woven (s.toFragment :: ((as.flatMap fun arm => [arm.1.toFragment, arm.2.toFragment]) ++ [f]))
      (selectCode s.bare (as.map bareArm) f.bare result labels endLabel)
      (selectCode s as f result labels endLabel) := by
  have harms := woven_armsCode s.value result endLabel as labels hlength
  have hend := (Woven.ofOwn [.set result f.valueOrNull, .label endLabel]).part f
  simpa [selectCode, Valued.toFragment] using (harms.append hend).part s.toFragment

/-- Fragments one after another, and then what the node adds. -/
theorem woven_inTurn (fs : List Fragment) (own : List Instruction) :
    Woven fs own (fs.flatMap Fragment.code ++ own) := by
  simpa using (Woven.ofParts fs).append (Woven.ofOwn own)

theorem flatMap_code_args (vs : List Valued) :
    (vs.map Valued.toFragment).flatMap Fragment.code = vs.flatMap Valued.code := by
  simp [List.flatMap_map, Valued.toFragment]

/-- The parts of a node are lowered one after another; its code is woven from
    theirs and from what the node adds. -/
theorem Lowers.woven {e : Expr} {n n' : Names} {f : Fragment} (h : Lowers e n f n') :
    ∃ fs m own, LowersAll e.children n fs m ∧ Glued e m fs own f.value n' ∧
      Woven fs own f.code := by
  cases h with
  -- between the code of two statements nothing is added
  | seq hrest hlast =>
    refine ⟨_, _, _, .cons hrest (.cons hlast (.nil _)), .seq .., ?_⟩
    simpa using woven_inTurn [_, _] []
  | branch hcond hyes hno =>
    exact ⟨_, _, _, .cons hcond (.cons hyes (.cons hno (.nil _))), .branch .., woven_branchCode ..⟩
  | loop hcond hbody =>
    exact ⟨_, _, _, .cons hcond (.cons hbody (.nil _)), .loop .., woven_loopCode ..⟩
  -- each arm counts as two parts, and the code of an arm is woven from both
  | @select subject arms otherwise s as g _ n₁ n₂ n₃ hsubject harms hotherwise =>
    have hall := (LowersAll.ofArms harms).append (.cons hotherwise (.nil _))
    refine ⟨_, _, _, ?_, .select _ _ _ s as g _ harms.length_eq, woven_selectCode _ _ _ _ _ _ ?_⟩
    · rw [Expr.children_select]
      exact .cons hsubject hall
    · simp
  | assign hvalue =>
    refine ⟨_, _, _, .cons hvalue (.nil _), .assign .., ?_⟩
    simpa [Valued.toFragment] using woven_inTurn [Valued.toFragment _] [_]
  | assignBuiltin hvalue =>
    refine ⟨_, _, _, .cons hvalue (.nil _), .assignBuiltin .., ?_⟩
    simpa using woven_inTurn [_] []
  | load haddress =>
    refine ⟨_, _, _, .cons haddress (.nil _), .load .., ?_⟩
    simpa [Valued.toFragment] using woven_inTurn [Valued.toFragment _] [_]
  | store haddress hvalue =>
    refine ⟨_, _, _, .cons haddress (.cons hvalue (.nil _)), .store .., ?_⟩
    simpa [Valued.toFragment] using woven_inTurn [Valued.toFragment _, Valued.toFragment _] [_]
  | control hvalue =>
    refine ⟨_, _, _, .cons hvalue (.nil _), .control .., ?_⟩
    simpa [Valued.toFragment] using woven_inTurn [Valued.toFragment _] [_]
  | unary hoperand hop =>
    refine ⟨_, _, _, .cons hoperand (.nil _), .unary _ _ _ hop, ?_⟩
    simpa [Valued.toFragment] using woven_inTurn [Valued.toFragment _] [_]
  | binary hleft hright hop =>
    refine ⟨_, _, _, .cons hleft (.cons hright (.nil _)), .binary _ _ _ _ _ hop, ?_⟩
    simpa [Valued.toFragment] using woven_inTurn [Valued.toFragment _, Valued.toFragment _] [_]
  | call hargs hname harity =>
    rw [← hargs.length_eq] at harity
    refine ⟨_, _, _, ?_, .call _ _ _ hname harity, ?_⟩
    · rw [Expr.children_call]
      exact .ofArgs hargs
    · rw [← flatMap_code_args]
      exact woven_inTurn _ _
  -- what has no parts has code of its own only
  | null n => exact ⟨_, _, _, .nil n, .null n, .ofOwn _⟩
  | bool value n => exact ⟨_, _, _, .nil n, .bool value n, .ofOwn _⟩
  | num literal n => exact ⟨_, _, _, .nil n, .num literal n, .ofOwn _⟩
  | str text n => exact ⟨_, _, _, .nil n, .str text n, .ofOwn _⟩
  | var name n => exact ⟨_, _, _, .nil n, .var name n, .ofOwn _⟩
  | builtin name n => exact ⟨_, _, _, .nil n, .builtin name n, .ofOwn _⟩
  | sensor target name n => exact ⟨_, _, _, .nil n, .sensor target name n, .ofOwn _⟩
  | comment text n => exact ⟨_, _, _, .nil n, .comment text n, .ofOwn _⟩
  | nop n => exact ⟨_, _, _, .nil n, .nop n, .ofOwn _⟩

/-- The same where it only matters which instructions there are. -/
theorem Lowers.glued {e : Expr} {n n' : Names} {f : Fragment} (h : Lowers e n f n') :
    ∃ fs m own, LowersAll e.children n fs m ∧ Glued e m fs own f.value n' ∧
      f.code.Perm (fs.flatMap Fragment.code ++ own) := by
  obtain ⟨fs, m, own, hparts, hglued, hwoven⟩ := h.woven
  exact ⟨fs, m, own, hparts, hglued, hwoven.perm⟩

/-! ## Section 4: Where operands come from -/

/-- The words that code has of its own: constants, conditions of jumps,
    operations, and orders to units. -/
def codeWords : List String :=
  ["null", "true", "false", "always", "notEqual", "not", "add", "sub", "mul", "div", "pow",
   "equal", "notEqual", "strictEqual", "lessThan", "lessThanEq", "greaterThan", "greaterThanEq",
   "or", "land", "rand", "within"] ++ Order.all.map Order.command

theorem unaryOperation?_mem {op operation : String} (h : unaryOperation? op = some operation) :
    operation ∈ codeWords := by
  unfold unaryOperation? at h
  split at h <;> cases h <;> decide

theorem binaryOperation?_mem {op operation : String} (h : binaryOperation? op = some operation) :
    operation ∈ codeWords := by
  unfold binaryOperation? at h
  split at h <;> cases h <;> decide

theorem Order.command_mem (o : Order) : o.command ∈ codeWords := by
  cases o <;> decide

namespace Expr

/-- The operands that a node spells itself. -/
def spelled : Expr → List String
  | num literal => [literal]
  | str text => [Text.quoted text]
  | var name => [name]
  | builtin name => ["@" ++ name]
  | assign name _ => [name]
  | assignBuiltin name _ => ["@" ++ name]
  | load cell _ => [cell]
  | store cell _ _ => [cell]
  | control property target _ => [property, target]
  | sensor target name => [target, name]
  | _ => []

end Expr

section

variable {P : String → Prop}

/-- What holds of the words, the arguments of a call and its result holds of all
    operands in its code. -/
theorem Intrinsic.operands_code (f : Intrinsic) {result : String} {args : List String}
    (hwords : ∀ x ∈ codeWords, P x) (hargs : ∀ x ∈ args, P x) (hresult : f.temps = 1 → P result) :
    ∀ i ∈ (f.code result args).code, ∀ x ∈ i.operands, P x := by
  have htake : ∀ k, ∀ x ∈ args.take k, P x := fun k x hx => hargs x (List.mem_of_mem_take hx)
  cases f with
  -- one instruction for each argument
  | print | printflush =>
    intro i hi x hx
    obtain ⟨arg, harg, rfl⟩ := List.mem_map.mp hi
    rw [List.mem_singleton.mp hx]
    exact hargs arg harg
  | rand =>
    simp only [code, Instruction.op, List.forall_mem_singleton, List.forall_mem_cons]
    exact ⟨hwords _ (by decide), hresult rfl, htake 1⟩
  | getlink =>
    simp only [code, List.forall_mem_singleton, List.forall_mem_cons]
    exact ⟨hresult rfl, htake 1⟩
  | ubind =>
    simp only [code, List.forall_mem_singleton]
    exact htake 1
  -- the variable that is written stands behind the arguments
  | within =>
    simp only [code, Instruction.ucontrol, List.forall_mem_singleton, List.forall_mem_cons,
      List.forall_mem_append]
    exact ⟨hwords _ (by decide), htake 3, hresult rfl⟩
  | order o =>
    simp only [code, Instruction.ucontrol, List.forall_mem_singleton, List.forall_mem_cons]
    exact ⟨hwords _ o.command_mem, fun x hx => hargs x (o.operands_subset args hx)⟩

theorem Intrinsic.operand_value (f : Intrinsic) {result : String} {args : List String}
    (hwords : ∀ x ∈ codeWords, P x) (hargs : ∀ x ∈ args, P x) (hresult : f.temps = 1 → P result) :
    P (f.code result args).value := by
  rw [value_code]
  rcases f.result_mem "null" result args with ⟨heq, htemps⟩ | hmem
  · rw [heq]
    exact hresult htemps
  · rcases List.mem_cons.mp hmem with heq | hmem
    · rw [heq]
      exact hwords _ (by decide)
    · exact hargs _ hmem

theorem operands_branchCode {c y : Valued} {f : Fragment} {result elseLabel endLabel : String}
    (hwords : ∀ x ∈ codeWords, P x) (hc : P c.value) (hy : P y.value) (hf : P f.valueOrNull)
    (hresult : P result) (helse : P elseLabel) (hend : P endLabel) :
    ∀ i ∈ branchCode c.bare y.bare f.bare result elseLabel endLabel, ∀ x ∈ i.operands, P x := by
  have htrue := hwords "true" (by decide)
  have halways := hwords "always" (by decide)
  have hdiffer := hwords "notEqual" (by decide)
  simp [branchCode, Instruction.jumpNotEqual, Instruction.set, Instruction.jumpAlways,
    Instruction.label, hc, hy, hf, hresult, helse, hend, htrue, halways, hdiffer]

theorem operands_loopCode {c : Valued} {f : Fragment} {condLabel doneLabel : String}
    (hwords : ∀ x ∈ codeWords, P x) (hc : P c.value) (hcond : P condLabel) (hdone : P doneLabel) :
    ∀ i ∈ loopCode c.bare f.bare condLabel doneLabel, ∀ x ∈ i.operands, P x := by
  have htrue := hwords "true" (by decide)
  have halways := hwords "always" (by decide)
  have hdiffer := hwords "notEqual" (by decide)
  simp [loopCode, Instruction.jumpNotEqual, Instruction.jumpAlways, Instruction.label, hc, hcond,
    hdone, htrue, halways, hdiffer]

theorem operands_armsCode {subject result endLabel : String} {as : List (Valued × Valued)}
    {labels : List String} (hwords : ∀ x ∈ codeWords, P x) (hsubject : P subject)
    (hresult : P result) (hend : P endLabel) (has : ∀ arm ∈ as, P arm.1.value ∧ P arm.2.value)
    (hlabels : ∀ l ∈ labels, P l) :
    ∀ i ∈ armsCode subject result endLabel (as.map bareArm) labels, ∀ x ∈ i.operands, P x := by
  have halways := hwords "always" (by decide)
  have hdiffer := hwords "notEqual" (by decide)
  induction as generalizing labels with
  | nil => simp [armsCode]
  | cons arm as ih =>
    obtain ⟨⟨hpattern, hbody⟩, has⟩ := List.forall_mem_cons.mp has
    cases labels with
    | nil => simp [armsCode]
    | cons next labels =>
      obtain ⟨hnext, hlabels⟩ := List.forall_mem_cons.mp hlabels
      have harm : ∀ i ∈ armCode subject arm.1.bare arm.2.bare result next endLabel,
          ∀ x ∈ i.operands, P x := by
        simp [armCode, Instruction.jumpNotEqual, Instruction.set, Instruction.jumpAlways,
          Instruction.label, hsubject, hpattern, hbody, hresult, hend, hnext, halways, hdiffer]
      exact List.forall_mem_append.mpr ⟨harm, ih has hlabels⟩

/-- What holds of the words, of the values of the parts, of what the node spells
    and of the names that are given out for it holds of all operands in what the
    node adds, and of its value. -/
theorem Glued.operands {e : Expr} {n n' : Names} {fs : List Fragment} {own : List Instruction}
    {value : Option String} (h : Glued e n fs own value n') (hwords : ∀ x ∈ codeWords, P x)
    (hvalues : ∀ f ∈ fs, ∀ x, f.value = some x → P x) (hspelled : ∀ x ∈ e.spelled, P x)
    (htemp : n.temps < n'.temps → P (tempName n.temps))
    (hlabel : ∀ k, n.labels ≤ k → k < n'.labels → P (labelName k)) :
    (∀ i ∈ own, ∀ x ∈ i.operands, P x) ∧ ∀ x, value = some x → P x := by
  have hvalue : ∀ v : Valued, v.toFragment ∈ fs → P v.value := fun v hv => hvalues _ hv _ rfl
  -- an absent value is read as `null`
  have horNull : ∀ f ∈ fs, P f.valueOrNull := by
    intro f hf
    cases hvalue : f.value with
    | none =>
      rw [Fragment.valueOrNull, hvalue]
      exact hwords _ (by decide)
    | some x =>
      rw [Fragment.valueOrNull, hvalue]
      exact hvalues f hf x hvalue
  cases h with
  | null n => simpa using hwords "null" (by decide)
  | bool value n => cases value <;> simpa using hwords _ (by decide)
  | var name n => simpa using hspelled name (by simp [Expr.spelled])
  | builtin name n => simpa using hspelled ("@" ++ name) (by simp [Expr.spelled])
  | assignBuiltin name value f n => simpa using hspelled ("@" ++ name) (by simp [Expr.spelled])
  | seq rest last f g n => exact ⟨by simp, hvalues g (by simp)⟩
  | comment text n => simp
  | nop n => simp
  | num literal n =>
    have htemp := htemp (Nat.lt_succ_self _)
    simp [Instruction.set, htemp, hspelled literal (by simp [Expr.spelled])]
  | str text n =>
    have htemp := htemp (Nat.lt_succ_self _)
    simp [Instruction.set, htemp, hspelled (Text.quoted text) (by simp [Expr.spelled])]
  | sensor target name n =>
    have htemp := htemp (Nat.lt_succ_self _)
    simp [Instruction.sensor, htemp, hspelled target (by simp [Expr.spelled]),
      hspelled name (by simp [Expr.spelled])]
  | assign name value v n =>
    simp [Instruction.set, hvalue v (by simp), hspelled name (by simp [Expr.spelled])]
  | load cell address a n =>
    have htemp := htemp (Nat.lt_succ_self _)
    simp [Instruction.read, htemp, hvalue a (by simp), hspelled cell (by simp [Expr.spelled])]
  | store cell address value a v n =>
    simp [Instruction.write, hvalue a (by simp), hvalue v (by simp),
      hspelled cell (by simp [Expr.spelled])]
  | control property target value v n =>
    simp [Instruction.control, hvalue v (by simp), hspelled property (by simp [Expr.spelled]),
      hspelled target (by simp [Expr.spelled])]
  | unary operand v n hop =>
    have htemp := htemp (Nat.lt_succ_self _)
    simp [Instruction.op, htemp, hvalue v (by simp), hwords _ (unaryOperation?_mem hop)]
  | binary left right l r n hop =>
    have htemp := htemp (Nat.lt_succ_self _)
    simp [Instruction.op, htemp, hvalue l (by simp), hvalue r (by simp),
      hwords _ (binaryOperation?_mem hop)]
  | branch cond yes no c y f n =>
    have htemp := htemp (Nat.lt_succ_self _)
    have helse := hlabel n.labels (by omega) (by show _ < n.labels + 2; omega)
    have hend := hlabel (n.labels + 1) (by omega) (by show _ < n.labels + 2; omega)
    refine ⟨?_, by simpa using htemp⟩
    exact operands_branchCode hwords (hvalue c (by simp)) (hvalue y (by simp))
      (horNull f (by simp)) htemp helse hend
  | loop cond body c f n =>
    have hcond := hlabel n.labels (by omega) (by show _ < n.labels + 2; omega)
    have hdone := hlabel (n.labels + 1) (by omega) (by show _ < n.labels + 2; omega)
    refine ⟨?_, hvalues f (by simp)⟩
    exact operands_loopCode hwords (hvalue c (by simp)) hcond hdone
  | select subject arms otherwise s as f n hlength =>
    have htemp := htemp (Nat.lt_succ_self _)
    have hnew : ∀ k, n.labels ≤ k → k ≤ n.labels + as.length → P (labelName k) :=
      fun k hk hk' => hlabel k hk (Nat.lt_succ_of_le hk')
    have hend := hnew (n.labels + as.length) (by omega) (by omega)
    have hf := horNull f (by simp)
    have has : ∀ arm ∈ as, P arm.1.value ∧ P arm.2.value := by
      intro arm harm
      have hmem : ∀ g ∈ [arm.1.toFragment, arm.2.toFragment],
          g ∈ as.flatMap fun arm => [arm.1.toFragment, arm.2.toFragment] :=
        fun g hg => List.mem_flatMap.mpr ⟨arm, harm, hg⟩
      exact ⟨hvalue arm.1 (by simp [hmem]), hvalue arm.2 (by simp [hmem])⟩
    have hlabels : ∀ l ∈ (List.range' n.labels as.length).map labelName, P l := by
      intro l hl
      obtain ⟨k, hk, rfl⟩ := List.mem_map.mp hl
      rw [List.mem_range'_1] at hk
      exact hnew k hk.1 (by omega)
    refine ⟨?_, by simpa using htemp⟩
    simp only [selectCode, Valued.bare_value, Valued.bare_code, Fragment.bare_code,
      Fragment.valueOrNull_bare, List.nil_append, List.append_nil, List.forall_mem_append]
    refine ⟨operands_armsCode hwords (hvalue s (by simp)) htemp hend has hlabels, ?_⟩
    simp [Instruction.set, Instruction.label, htemp, hf, hend]
  | @call name fn args vs n hname harity =>
    have hargs : ∀ x ∈ vs.map Valued.value, P x := by
      intro x hx
      obtain ⟨v, hv, rfl⟩ := List.mem_map.mp hx
      exact hvalue v (List.mem_map_of_mem hv)
    have hresult : fn.temps = 1 → P (tempName n.temps) := by
      intro htemps
      exact htemp (by show _ < n.temps + fn.temps; omega)
    refine ⟨fn.operands_code hwords hargs hresult, ?_⟩
    simpa using fn.operand_value hwords hargs hresult

end

/-- Where an operand in the code of a tree can come from. -/
inductive Origin (e : Expr) (n n' : Names) : String → Prop
  | spelled {node : Expr} {x : String} : node.Within e → x ∈ node.spelled → Origin e n n' x
  | temp {k} : n.temps ≤ k → k < n'.temps → Origin e n n' (tempName k)
  | label {k} : n.labels ≤ k → k < n'.labels → Origin e n n' (labelName k)
  | word {x} : x ∈ codeWords → Origin e n n' x

theorem Origin.child {child e : Expr} {n n' m m' : Names} {x : String}
    (h : Origin child m m' x) (hchild : child ∈ e.children) (hle : n.Le m) (hle' : m'.Le n') :
    Origin e n n' x := by
  cases h with
  | spelled hnode hx => exact .spelled (hnode.child hchild) hx
  | temp hk hk' =>
    exact .temp (Nat.le_trans hle.temps hk) (Nat.lt_of_lt_of_le hk' hle'.temps)
  | label hk hk' =>
    exact .label (Nat.le_trans hle.labels hk) (Nat.lt_of_lt_of_le hk' hle'.labels)
  | word hx => exact .word hx

theorem Glued.names_le {e : Expr} {n n' : Names} {fs : List Fragment} {own : List Instruction}
    {value : Option String} (h : Glued e n fs own value n') : n.Le n' := by
  cases h <;> constructor <;> simp
  omega

/-- Every operand in the code of a tree has an origin, and so has its value. -/
theorem Lowers.origin {e : Expr} {n n' : Names} {f : Fragment} (h : Lowers e n f n') :
    (∀ i ∈ f.code, ∀ x ∈ i.operands, Origin e n n' x) ∧
      ∀ x, f.value = some x → Origin e n n' x := by
  induction e using Expr.children_induction generalizing n f n' with
  | step e ih =>
    obtain ⟨fs, m, own, hparts, hglued, hperm⟩ := h.glued
    have hle := hglued.names_le
    -- the parts, by the induction hypothesis
    have hpart : ∀ g ∈ fs, (∀ i ∈ g.code, ∀ x ∈ i.operands, Origin e n n' x) ∧
        ∀ x, g.value = some x → Origin e n n' x := by
      intro g hg
      obtain ⟨child, hchild, k, k', hk, hlowers, hk'⟩ := hparts.exists_of_mem hg
      obtain ⟨hcode, hvalue⟩ := ih child hchild hlowers
      exact ⟨fun i hi x hx => (hcode i hi x hx).child hchild hk (hk'.trans hle),
        fun x hx => (hvalue x hx).child hchild hk (hk'.trans hle)⟩
    have hown := hglued.operands (P := Origin e n n') (fun _ => .word)
      (fun g hg => (hpart g hg).2) (fun _ => .spelled .refl)
      (fun hlt => .temp hparts.names_le.temps hlt)
      (fun _ hk hk' => .label (Nat.le_trans hparts.names_le.labels hk) hk')
    refine ⟨?_, hown.2⟩
    intro i hi
    rcases List.mem_append.mp (hperm.mem_iff.mp hi) with hi | hi
    · obtain ⟨g, hg, hi⟩ := List.mem_flatMap.mp hi
      exact (hpart g hg).1 i hi
    · exact hown.1 i hi

end Mlog
