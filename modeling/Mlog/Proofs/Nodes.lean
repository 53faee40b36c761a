import Mlog.Lower

/-! # The nodes of a tree

    The parts of a node are listed in the order in which they are evaluated
    (`Expr.parts`), and the nodes of a tree are those of its parts and then the
    tree itself (`Expr.nodes`).  What a tree assigns and names is collected from
    its nodes, so it needs no recursion of its own. -/

namespace Mlog

namespace Expr

/-! ## Section 1: Values -/

/-- Does a tree have a value?  A loop has that of its body. -/
def hasValue : Expr → Bool
  | seq _ last => last.hasValue
  | loop _ body => body.hasValue
  | comment _ | nop => false
  | _ => true

/-- Is the value of a tree what the last round of a loop left behind? -/
def endsInLoop : Expr → Bool
  | seq _ last => last.endsInLoop
  | loop _ body => body.hasValue
  | _ => false

/-! ## Section 2: Parts -/

/-- The parts of a node in the order in which they are evaluated, each with the
    role for which its value is needed, if it is. -/
def parts : Expr → List (Option Role × Expr)
  | seq rest last => [(none, rest), (none, last)]
  | branch cond yes no => [(some .branchCondition, cond), (some .branchYes, yes), (none, no)]
  | loop cond body => [(some .loopCondition, cond), (none, body)]
  | select subject arms otherwise =>
    (some .subject, subject) ::
      ((arms.flatMap fun arm => [(some .pattern, arm.1), (some .armBody, arm.2)]) ++
        [(none, otherwise)])
  | assign name value => [(some (.assigned name), value)]
  -- the value is computed for its effects only
  | assignBuiltin _ value => [(none, value)]
  | load cell address => [(some (.loadAddress cell), address)]
  | store cell address value =>
    [(some (.storeAddress cell), address), (some (.stored cell), value)]
  | control property target value => [(some (.controlled target property), value)]
  | unary op operand => [(some (.operand op), operand)]
  | binary op left right => [(some (.leftOperand op), left), (some (.rightOperand op), right)]
  | call name args => (args.zipIdx 1).map fun arg => (some (.argument arg.2 name), arg.1)
  | _ => []

/-- A tree is within another one if it is that tree or within a part of it. -/
inductive Within (node : Expr) : Expr → Prop
  | refl : Within node node
  | part {e part : Expr} {role? : Option Role} : (role?, part) ∈ e.parts → Within node part →
      Within node e

theorem sizeOf_part_lt {e part : Expr} {role? : Option Role} (h : (role?, part) ∈ e.parts) :
    sizeOf part < sizeOf e := by
  cases e with
  | select subject arms otherwise =>
    simp only [parts, List.mem_cons, List.mem_append, List.mem_flatMap,
      List.not_mem_nil, or_false, Prod.mk.injEq] at h
    rw [select.sizeOf_spec]
    rcases h with ⟨_, rfl⟩ | ⟨arm, harm, hpart⟩ | ⟨_, rfl⟩
    · omega
    -- a part of an arm is smaller than the arm, and the arm than the list
    · have hsize := List.sizeOf_lt_of_mem harm
      rw [show sizeOf arm = 1 + sizeOf arm.1 + sizeOf arm.2 from rfl] at hsize
      rcases hpart with ⟨_, rfl⟩ | ⟨_, rfl⟩ <;> omega
    · omega
  | call name args =>
    simp only [parts, List.mem_map, Prod.mk.injEq] at h
    obtain ⟨⟨arg, i⟩, harg, _, rfl⟩ := h
    have hsize := List.sizeOf_lt_of_mem (List.fst_mem_of_mem_zipIdx harg)
    rw [call.sizeOf_spec]
    omega
  | branch cond yes no =>
    simp only [parts, List.mem_cons, Prod.mk.injEq, List.not_mem_nil, or_false] at h
    rw [branch.sizeOf_spec]
    rcases h with ⟨_, rfl⟩ | ⟨_, rfl⟩ | ⟨_, rfl⟩ <;> omega
  | seq | loop | store | binary =>
    simp only [parts, List.mem_cons, Prod.mk.injEq, List.not_mem_nil, or_false] at h
    simp only [seq.sizeOf_spec, loop.sizeOf_spec, store.sizeOf_spec, binary.sizeOf_spec]
    rcases h with ⟨_, rfl⟩ | ⟨_, rfl⟩ <;> omega
  | assign | assignBuiltin | load | control | unary =>
    simp only [parts, List.mem_cons, Prod.mk.injEq, List.not_mem_nil, or_false] at h
    obtain ⟨_, rfl⟩ := h
    simp only [assign.sizeOf_spec, assignBuiltin.sizeOf_spec, load.sizeOf_spec,
      control.sizeOf_spec, unary.sizeOf_spec]
    omega
  | _ => exact absurd h List.not_mem_nil

/-- Induction on trees through their parts, whatever the form of the node. -/
theorem parts_induction {motive : Expr → Prop}
    (step : ∀ e : Expr, (∀ part ∈ e.parts, motive part.2) → motive e) (e : Expr) : motive e :=
  step e fun part _ => parts_induction step part.2
termination_by sizeOf e
decreasing_by exact sizeOf_part_lt ‹_›

/-! ## Section 3: Nodes -/

/-- The parts of a node in the order in which they are evaluated. -/
def children (e : Expr) : List Expr := e.parts.map Prod.snd

theorem children_call (name : String) (args : List Expr) : (call name args).children = args := by
  simp [children, parts, Function.comp_def]

theorem children_select (subject otherwise : Expr) (arms : List (Expr × Expr)) :
    (select subject arms otherwise).children =
      subject :: ((arms.flatMap fun arm => [arm.1, arm.2]) ++ [otherwise]) := by
  simp [children, parts, List.map_flatMap]

theorem mem_children_select {subject otherwise : Expr} {arms : List (Expr × Expr)}
    {arm : Expr × Expr} (h : arm ∈ arms) :
    arm.1 ∈ (select subject arms otherwise).children ∧
      arm.2 ∈ (select subject arms otherwise).children := by
  have hmem : ∀ part ∈ [arm.1, arm.2], part ∈ (select subject arms otherwise).children := by
    intro part hpart
    rw [children_select]
    exact List.mem_cons_of_mem _ (List.mem_append_left _ (List.mem_flatMap_of_mem h hpart))
  exact ⟨hmem _ (by simp), hmem _ (by simp)⟩

/-- What is within a part is within the node. -/
theorem Within.child {node child e : Expr} (h : node.Within child) (hchild : child ∈ e.children) :
    node.Within e := by
  obtain ⟨⟨role?, part⟩, hpart, rfl⟩ := List.mem_map.mp hchild
  exact .part hpart h

/-- Induction on trees through the parts of a node. -/
theorem children_induction {motive : Expr → Prop}
    (step : ∀ e : Expr, (∀ child ∈ e.children, motive child) → motive e) (e : Expr) : motive e := by
  induction e using parts_induction with
  | step e ih =>
    apply step
    intro child hchild
    obtain ⟨part, hpart, rfl⟩ := List.mem_map.mp hchild
    exact ih part hpart

/-- The nodes of a tree in the order in which they are evaluated, each after its
    parts. -/
def nodes (e : Expr) : List Expr :=
  (e.parts.attach.flatMap fun part => part.1.2.nodes) ++ [e]
termination_by sizeOf e
decreasing_by exact sizeOf_part_lt part.2

theorem nodes_eq (e : Expr) : e.nodes = e.children.flatMap nodes ++ [e] := by
  rw [nodes, children, List.flatMap_map]
  congr 1
  rw [List.flatMap_subtype (g := fun part => part.2.nodes) (fun _ _ => rfl),
    List.unattach_attach]

theorem mem_nodes {node e : Expr} : node ∈ e.nodes ↔ node.Within e := by
  induction e using parts_induction with
  | step e ih =>
    rw [nodes_eq, List.mem_append, List.mem_singleton, List.mem_flatMap]
    constructor
    · intro h
      rcases h with ⟨child, hchild, hnode⟩ | rfl
      · obtain ⟨part, hpart, rfl⟩ := List.mem_map.mp hchild
        exact .part hpart ((ih part hpart).mp hnode)
      · exact .refl
    · intro h
      cases h with
      | refl => exact .inr rfl
      | part hpart hnode =>
        exact .inl ⟨_, List.mem_map_of_mem hpart, (ih _ hpart).mpr hnode⟩

theorem mem_nodes_of_child {node child e : Expr} (hchild : child ∈ e.children)
    (hnode : node ∈ child.nodes) : node ∈ e.nodes :=
  mem_nodes.mpr ((mem_nodes.mp hnode).child hchild)

/-! ## Section 4: What nodes assign and name -/

/-- The variable that a node assigns to. -/
def assigned? : Expr → Option String
  | assign name _ => some name
  | _ => none

/-- The variables that the nodes of a tree assign to. -/
def assignedNames (e : Expr) : List String := e.nodes.filterMap assigned?

theorem mem_assignedNames {e : Expr} {x : String} :
    x ∈ e.assignedNames ↔ ∃ node : Expr, node.Within e ∧ node.assigned? = some x := by
  simp [assignedNames, mem_nodes]

/-- The variables, memory cells and blocks that a node names itself. -/
def ownIdentifiers : Expr → List String
  | var name => [name]
  | assign name _ => [name]
  | load cell _ => [cell]
  | store cell _ _ => [cell]
  | control _ target _ => [target]
  | sensor target _ => [target]
  | _ => []

end Expr

end Mlog
