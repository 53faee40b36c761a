import Mlog.Proofs.Assembly

/-! # How many instructions a program has

    Lowering visits every node of a tree exactly once, and what a node adds to
    the code depends on its kind only, up to the number of arms of a `case` and
    the number of arguments of a `print` or `printflush`.  So the instructions of
    each kind can be counted without lowering anything.

    * `census`: the table of what the nodes add.
    * `Lowers.accounted`: the code of one tree.
    * `instructions_of_generate`: the program of a tree, and the temporary
      variables that it takes. -/

namespace Mlog

/-! ## Section 1: The table -/

namespace Expr

/-- The kinds of nodes; calls are told apart by the name of the function. -/
inductive Kind
  | null | bool | num | str | var | builtin | seq | branch | loop | select | assign
  | assignBuiltin | load | store | control | sensor | unary | binary
  | call (name : String)
  | comment | nop
deriving DecidableEq, Repr

/-- The kind of a node. -/
def kind : Expr → Kind
  | null => .null
  | bool _ => .bool
  | num _ => .num
  | str _ => .str
  | var _ => .var
  | builtin _ => .builtin
  | seq _ _ => .seq
  | branch _ _ _ => .branch
  | loop _ _ => .loop
  | select _ _ _ => .select
  | assign _ _ => .assign
  | assignBuiltin _ _ => .assignBuiltin
  | load _ _ => .load
  | store _ _ _ => .store
  | control _ _ _ => .control
  | sensor _ _ => .sensor
  | unary _ _ => .unary
  | binary _ _ _ => .binary
  | call name _ => .call name
  | comment _ => .comment
  | nop => .nop

/-- How many arms a `case` has. -/
def arms : Expr → Nat
  | select _ arms _ => arms.length
  | _ => 0

/-- How many arguments a call has. -/
def arguments : Expr → Nat
  | call _ args => args.length
  | _ => 0

end Expr

open Mlog.Expr (Kind)

/-- How many nodes of a list are of one of the kinds. -/
def nodesOf (kinds : List Kind) (nodes : List Expr) : Nat :=
  nodes.countP fun node => kinds.contains node.kind

/-- A number for each node of a kind, added up. -/
def sumOver (kind : Kind) (measure : Expr → Nat) (nodes : List Expr) : Nat :=
  nodes.foldr (fun node sum => (if node.kind = kind then measure node else 0) + sum) 0

/-- How many instructions in code are of a kind. -/
def instructionsOf (opcode : Opcode) (code : List Instruction) : Nat :=
  code.countP fun i => i.opcode = opcode

/-- The functions that give an order to the unit under control, or ask it
    something. -/
def unitFunctions : List String :=
  ["move", "mine", "itemDrop", "itemTake", "flag", "approach", "idle", "pathfind", "stop", "boot",
   "target", "targetp", "payDrop", "payTake", "build", "getBlock", "within"]

/-- How many instructions of each kind the nodes of a tree come to. -/
def census (nodes : List Expr) : Opcode → Nat
  | .set => nodesOf [.num, .str, .assign] nodes + 2 * nodesOf [.branch] nodes +
      sumOver .select (fun node => node.arms + 1) nodes
  | .op => nodesOf [.unary, .binary, .call "rand"] nodes
  | .jump => 2 * nodesOf [.branch, .loop] nodes + sumOver .select (fun node => 2 * node.arms) nodes
  | .label =>
      2 * nodesOf [.branch, .loop] nodes + sumOver .select (fun node => node.arms + 1) nodes
  | .read => nodesOf [.load] nodes
  | .write => nodesOf [.store] nodes
  | .control => nodesOf [.control] nodes
  | .sensor => nodesOf [.sensor] nodes
  | .getlink => nodesOf [.call "getlink"] nodes
  | .print => sumOver (.call "print") Expr.arguments nodes
  | .printflush => sumOver (.call "printflush") Expr.arguments nodes
  | .ubind => nodesOf [.call "ubind"] nodes
  | .ucontrol => nodesOf (unitFunctions.map .call) nodes
  -- the one `end` of a program belongs to no node
  | .end_ => 0

/-- How many temporary variables the nodes of a tree take. -/
def tempsTaken (nodes : List Expr) : Nat :=
  nodesOf [.num, .str, .unary, .binary, .load, .sensor, .branch, .select, .call "rand",
    .call "getlink", .call "within"] nodes

/-! ## Section 2: Counting adds up -/

@[simp] theorem nodesOf_append (kinds : List Kind) (xs ys : List Expr) :
    nodesOf kinds (xs ++ ys) = nodesOf kinds xs + nodesOf kinds ys :=
  List.countP_append

@[simp] theorem sumOver_append (kind : Kind) (measure : Expr → Nat) (xs ys : List Expr) :
    sumOver kind measure (xs ++ ys) = sumOver kind measure xs + sumOver kind measure ys := by
  induction xs with
  | nil => exact (Nat.zero_add _).symm
  | cons node xs ih =>
    show _ + sumOver kind measure (xs ++ ys) = _ + sumOver kind measure xs + _
    rw [ih, Nat.add_assoc]

@[simp] theorem instructionsOf_nil (opcode : Opcode) : instructionsOf opcode [] = 0 := rfl

@[simp] theorem instructionsOf_append (opcode : Opcode) (c d : List Instruction) :
    instructionsOf opcode (c ++ d) = instructionsOf opcode c + instructionsOf opcode d :=
  List.countP_append

theorem instructionsOf_perm {c d : List Instruction} (h : c.Perm d) (opcode : Opcode) :
    instructionsOf opcode c = instructionsOf opcode d :=
  h.countP_eq _

theorem census_append (xs ys : List Expr) (opcode : Opcode) :
    census (xs ++ ys) opcode = census xs opcode + census ys opcode := by
  cases opcode with
  | set | jump | label =>
    simp only [census, nodesOf_append, sumOver_append]
    omega
  | print | printflush => exact sumOver_append ..
  | end_ => rfl
  | _ => exact nodesOf_append ..

theorem tempsTaken_append (xs ys : List Expr) :
    tempsTaken (xs ++ ys) = tempsTaken xs + tempsTaken ys :=
  nodesOf_append ..

/-- The code and the temporary variables that are taken for it are what the
    table says of the nodes. -/
structure Accounted (nodes : List Expr) (code : List Instruction) (n n' : Names) : Prop where
  instructions : ∀ opcode, instructionsOf opcode code = census nodes opcode
  temps : n'.temps = n.temps + tempsTaken nodes

theorem accounted_nil (n : Names) : Accounted [] [] n n :=
  ⟨fun opcode => by cases opcode <;> rfl, rfl⟩

theorem Accounted.append {xs ys : List Expr} {c d : List Instruction} {n n' n'' : Names}
    (h : Accounted xs c n n') (h' : Accounted ys d n' n'') :
    Accounted (xs ++ ys) (c ++ d) n n'' := by
  constructor
  · intro opcode
    rw [instructionsOf_append, census_append, h.instructions, h'.instructions]
  · rw [h'.temps, h.temps, tempsTaken_append, Nat.add_assoc]

/-! ## Section 3: What one node adds -/

/-- Each arm has a jump past it, a `set`, a jump to the end and a label. -/
theorem instructionsOf_armsCode (opcode : Opcode) (subject result endPlace : String)
    (arms : List (Valued × Valued)) {places : List String} (hlength : places.length = arms.length) :
    instructionsOf opcode (armsCode subject result endPlace (arms.map bareArm) places) =
      arms.length * [Opcode.jump, .set, .jump, .label].count opcode := by
  induction arms generalizing places with
  | nil => simp [armsCode]
  | cons arm arms ih =>
    cases places with
    | nil => exact absurd hlength (by simp)
    | cons place places =>
      have harm : instructionsOf opcode
          (armCode subject arm.1.bare arm.2.bare result place endPlace) =
            [Opcode.jump, .set, .jump, .label].count opcode := by
        cases opcode <;> rfl
      show instructionsOf opcode (armCode subject arm.1.bare arm.2.bare result place endPlace ++
        armsCode subject result endPlace (arms.map bareArm) places) = _
      rw [instructionsOf_append, harm, ih (Nat.succ.inj hlength), List.length_cons, Nat.succ_mul,
        Nat.add_comm]

theorem instructionsOf_map (make : String → Instruction) (kind : Opcode)
    (hmake : ∀ arg, (make arg).opcode = kind) (args : List String) (opcode : Opcode) :
    instructionsOf opcode (args.map make) = if kind = opcode then args.length else 0 := by
  unfold instructionsOf
  by_cases h : kind = opcode <;> simp [Function.comp_def, hmake, h]

theorem Intrinsic.name_of_ofName? {name : String} {f : Intrinsic} (h : ofName? name = some f) :
    f.name = name := by
  simpa using List.find?_some h

/-- The call of an order counts as a `ucontrol` and as nothing else. -/
theorem Order.census_call (o : Order) (args : List Expr) (opcode : Opcode) :
    census [.call o.functionName args] opcode = if opcode = .ucontrol then 1 else 0 := by
  have hunit : o.functionName ∈ unitFunctions := by cases o <;> decide +kernel
  have hothers : ∀ name ∈ ["rand", "getlink", "print", "printflush", "ubind"],
      o.functionName ≠ name := by cases o <;> decide +kernel
  simp only [List.forall_mem_cons] at hothers
  cases opcode <;> simp [census, nodesOf, sumOver, Expr.kind, hunit, hothers]

/-- The code of a call is what the table says of the call. -/
theorem Intrinsic.accounted_code (f : Intrinsic) {args : List Expr} {operands : List String}
    (hlength : operands.length = args.length) (n : Names) :
    Accounted [.call f.name args] (f.code (tempName n.temps) operands).code n
      { n with temps := n.temps + f.temps } := by
  constructor
  · intro opcode
    cases f with
    -- one instruction for each argument, and no other
    | print =>
      show instructionsOf opcode (operands.map Instruction.print) = _
      rw [instructionsOf_map _ .print fun _ => rfl, hlength]
      cases opcode <;> rfl
    | printflush =>
      show instructionsOf opcode (operands.map Instruction.printflush) = _
      rw [instructionsOf_map _ .printflush fun _ => rfl, hlength]
      cases opcode <;> rfl
    | order o =>
      rw [name, o.census_call]
      cases opcode <;> rfl
    | _ => cases opcode <;> rfl
  · cases f with
    | order o => cases o <;> rfl
    | _ => rfl

/-- A `case` has its arms, and a `set` and a label after them. -/
theorem accounted_select (subject otherwise : Expr) (arms : List (Expr × Expr)) (s : Valued)
    (as : List (Valued × Valued)) (f : Fragment) (n : Names) (hlength : as.length = arms.length) :
    Accounted [.select subject arms otherwise]
      (selectCode s.bare (as.map bareArm) f.bare (tempName n.temps)
        ((List.range' n.labels as.length).map labelName) (labelName (n.labels + as.length)))
      n ⟨n.temps + 1, n.labels + as.length + 1⟩ := by
  refine ⟨?_, rfl⟩
  intro opcode
  have hplaces : ((List.range' n.labels as.length).map labelName).length = as.length := by simp
  have hends : instructionsOf opcode [.set (tempName n.temps) f.valueOrNull,
      .label (labelName (n.labels + as.length))] = [Opcode.set, .label].count opcode := by
    cases opcode <;> rfl
  have htable : arms.length * [Opcode.jump, .set, .jump, .label].count opcode +
      [Opcode.set, .label].count opcode = census [.select subject arms otherwise] opcode := by
    cases opcode <;> simp [census, nodesOf, sumOver, Expr.kind, Expr.arms, Nat.mul_comm]
  simp only [selectCode, Valued.bare_code, Fragment.bare_code, List.nil_append, List.append_nil,
    instructionsOf_append]
  rw [instructionsOf_armsCode opcode _ _ _ as hplaces, Fragment.valueOrNull_bare, hends, hlength,
    htable]

/-- What a node adds is what the table says of it.  The table knows the parts of
    the node only, so there has to be one fragment for each of them. -/
theorem Glued.accounted {e : Expr} {n n' : Names} {fs : List Fragment} {own : List Instruction}
    {value : Option String} (h : Glued e n fs own value n')
    (hlength : fs.length = e.children.length) : Accounted [e] own n n' := by
  cases h with
  | select subject arms otherwise s as f n harms =>
    exact accounted_select subject otherwise arms s as f n harms
  | @call name f args vs n hname harity =>
    rw [Expr.children_call] at hlength
    obtain rfl := Intrinsic.name_of_ofName? hname
    exact f.accounted_code (by simpa using hlength) n
  | _ => exact ⟨fun opcode => by cases opcode <;> rfl, rfl⟩

/-! ## Section 4: Trees -/

theorem LowersAll.length_eq {es : List Expr} {fs : List Fragment} {n n' : Names}
    (h : LowersAll es n fs n') : fs.length = es.length := by
  induction h with
  | nil n => rfl
  | cons _ _ ih => simp [ih]

theorem LowersAll.accounted {es : List Expr} {fs : List Fragment} {n n' : Names}
    (h : LowersAll es n fs n')
    (hes : ∀ e ∈ es, ∀ {n n' : Names} {f : Fragment}, Lowers e n f n' →
      Accounted e.nodes f.code n n') :
    Accounted (es.flatMap Expr.nodes) (fs.flatMap Fragment.code) n n' := by
  induction h with
  | nil n => exact accounted_nil n
  | cons he _ ih =>
    obtain ⟨hfirst, hothers⟩ := List.forall_mem_cons.mp hes
    exact (hfirst he).append (ih hothers)

/-- Every node of a tree has its share in the code, and none has it twice. -/
theorem Lowers.accounted {e : Expr} {n n' : Names} {f : Fragment} (h : Lowers e n f n') :
    Accounted e.nodes f.code n n' := by
  induction e using Expr.children_induction generalizing n f n' with
  | step e ih =>
    obtain ⟨fs, m, own, hparts, hglued, hperm⟩ := h.glued
    have hchildren := hparts.accounted fun child hchild _ _ _ hlowers => ih child hchild hlowers
    have hall := hchildren.append (hglued.accounted hparts.length_eq)
    rw [e.nodes_eq]
    -- the instructions of the node stand between those of its parts, which does not matter here
    exact ⟨fun opcode => (instructionsOf_perm hperm opcode).trans (hall.instructions opcode),
      hall.temps⟩

/-! ## Section 5: Programs -/

/-- The instructions of a program, counted by their kind, are what the table
    says of the nodes of its tree, with one `end` added; and lowering takes as
    many temporary variables as it says. -/
theorem instructions_of_generate {e : Expr} {program : List Instruction}
    (h : generate e = .ok program) :
    (∀ opcode, opcode ≠ .end_ → instructionsOf opcode program = census e.nodes opcode) ∧
    instructionsOf .end_ program = 1 ∧
    ((lower e).runFrom .none).2.temps = tempsTaken e.nodes := by
  obtain ⟨f, n', hlowers, rfl⟩ := lowers_of_generate h
  have haccounted := hlowers.accounted
  refine ⟨?_, ?_, ?_⟩
  · intro opcode hne
    have hend : instructionsOf opcode [.end_] = 0 := by
      simp [instructionsOf, Instruction.end_, hne.symm]
    rw [instructionsOf_append, hend, haccounted.instructions]
    rfl
  · rw [instructionsOf_append, haccounted.instructions]
    rfl
  · rw [run_of_lowers hlowers, haccounted.temps]
    exact Nat.zero_add _

/-- `@flag = print(case rand(1, 2) { when 3 { if a { "x" } } when b { within(c, d, 4) } }, e)`:
    parts stand in all kinds of places, also where their value is not used. -/
def crowded : Expr :=
  .assignBuiltin "flag"
    (.call "print"
      [.select (.call "rand" [.num "1", .num "2"])
        [(.num "3", .branch (.var "a") (.str "x") .nop),
         (.var "b", .call "within" [.var "c", .var "d", .num "4"])] .nop,
       .var "e"])

theorem instructions_of_crowded :
    ∃ program, generate crowded = .ok program ∧
      instructionsOf .set program = 10 ∧ instructionsOf .op program = 1 ∧
      instructionsOf .jump program = 6 ∧ instructionsOf .label program = 5 ∧
      instructionsOf .print program = 2 ∧ instructionsOf .ucontrol program = 1 ∧
      instructionsOf .end_ program = 1 ∧ ((lower crowded).runFrom .none).2.temps = 9 := by
  have hrun : generate crowded = .ok _ := rfl
  obtain ⟨hcounts, hend, htemps⟩ := instructions_of_generate hrun
  refine ⟨_, hrun, ?_, ?_, ?_, ?_, ?_, ?_, hend, ?_⟩
  · exact (hcounts .set (by decide)).trans (by decide +kernel)
  · exact (hcounts .op (by decide)).trans (by decide +kernel)
  · exact (hcounts .jump (by decide)).trans (by decide +kernel)
  · exact (hcounts .label (by decide)).trans (by decide +kernel)
  · exact (hcounts .print (by decide)).trans (by decide +kernel)
  · exact (hcounts .ucontrol (by decide)).trans (by decide +kernel)
  · exact htemps.trans (by decide +kernel)

end Mlog
