import Mlog.Proofs.Machine
import Mlog.Proofs.Nodes

/-! # Evaluating trees

    What a tree means, said without any code: its parts are evaluated in the
    order in which they are written, each to a value, and the values are put
    together.  A part without a value counts as `null`.

    The evaluator answers within a number of rounds that each loop may take
    at most.  A tree comes to a value if some number of rounds is enough
    (`Evaluates`), and it loops forever if none is (`Diverges`).

    The second half of the module is about the trees for which generated code
    does the same.  Code holds the value of a variable by naming the variable,
    so the variable must not be assigned before the value is used, and the
    value of a loop is `null`, but its code has that of the last round.  Both
    matter only where a value is used (`Expr.stable`).  And code names its own
    variables `tmp0`, `tmp1`, …, so the program must not (`Expr.operands`). -/

namespace Mlog

variable {V D : Type}

/-! ## Section 1: The evaluator -/

/-- A computation that may change the state, and that may run out of rounds. -/
abbrev Eval (V D : Type) := StateT (State V D) Option

namespace Machine

variable (m : Machine V D)

/-- Evaluates a body as long as a condition holds, for so many rounds. -/
def repeatWhile (cond body : Eval V D V) : Nat → Eval V D Unit
  | 0 => fun _ => none
  | rounds + 1 => do
    if m.taken (← cond) then
      discard body
      repeatWhile cond body rounds

/-- Calls a built-in function. -/
def invoke (f : Intrinsic) (args : List V) : Eval V D V := do
  let s ← get
  match f with
  | .print =>
    set (s.withDevice (args.foldl m.print s.device))
    return args.getLastD m.null
  | .printflush =>
    set (s.withDevice (args.foldl m.printflush s.device))
    return m.null
  | .rand =>
    let (v, d) := m.operate "rand" (args.take 1) s.device
    set (s.withDevice d)
    return v
  | .getlink => return m.linked s.device (args.headD m.null)
  | .ubind =>
    set (s.withDevice (m.ubind s.device (args.headD m.null)))
    return m.null
  | .within => return m.isWithin s.device (args.take 3)
  | .order o =>
    set (s.withDevice (m.order o.command s.device (o.operands args)))
    return o.value m.null args

/-- Computes an operation. -/
def compute (operation : String) (operands : List V) : Eval V D V := do
  let s ← get
  let (v, d) := m.operate operation operands s.device
  set (s.withDevice d)
  return v

mutual

/-- The value of a tree; each of its loops may take so many rounds at most. -/
def eval (rounds : Nat) : Expr → Eval V D V
  | .null => return m.null
  | .bool value => return m.constant (if value then "true" else "false")
  | .num literal => return m.lookup (← get) literal
  | .str text => return m.constant (Text.quoted text)
  | .var name => return m.lookup (← get) name
  | .builtin name => return m.lookup (← get) ("@" ++ name)
  | .seq rest last => do
    discard (eval rounds rest)
    eval rounds last
  | .branch cond yes no => do
    if m.taken (← eval rounds cond) then eval rounds yes else eval rounds no
  | .loop cond body => do
    m.repeatWhile (eval rounds cond) (eval rounds body) rounds
    return m.null
  | .select subject arms otherwise => do
    evalArms rounds (← eval rounds subject) (eval rounds otherwise) arms
  | .assign name value => do
    let v ← eval rounds value
    modify (·.set name v)
    return v
  -- the game owns its built-ins: nothing is set
  | .assignBuiltin name value => do
    discard (eval rounds value)
    return m.lookup (← get) ("@" ++ name)
  | .load cell address => do
    let a ← eval rounds address
    let s ← get
    return m.readCell s.device (m.lookup s cell) a
  | .store cell address value => do
    let a ← eval rounds address
    let v ← eval rounds value
    modify fun s => s.withDevice (m.writeCell s.device (m.lookup s cell) a v)
    return v
  | .control property target value => do
    let v ← eval rounds value
    modify fun s => s.withDevice (m.control property s.device (m.lookup s target) v)
    return v
  | .sensor target name => do
    let s ← get
    return m.sense s.device (m.lookup s target) (m.lookup s name)
  | .unary op operand => do
    let v ← eval rounds operand
    m.compute ((unaryOperation? op).getD op) [v]
  | .binary op left right => do
    let l ← eval rounds left
    let r ← eval rounds right
    m.compute ((binaryOperation? op).getD op) [l, r]
  | .call name args => do
    let vs ← evalArgs rounds args
    match Intrinsic.ofName? name with
    | some f => m.invoke f vs
    | none => return m.null
  | .comment _ => return m.null
  | .nop => return m.null

/-- The values of arguments, from left to right. -/
def evalArgs (rounds : Nat) : List Expr → Eval V D (List V)
  | [] => return []
  | arg :: args => do
    let v ← eval rounds arg
    let vs ← evalArgs rounds args
    return v :: vs

/-- The value of the first arm whose pattern does not differ from the
    subject, and the other one if there is no such arm. -/
def evalArms (rounds : Nat) (subject : V) (otherwise : Eval V D V) :
    List (Expr × Expr) → Eval V D V
  | [] => otherwise
  | (pattern, body) :: arms => do
    if m.notEqual subject (← eval rounds pattern) then
      evalArms rounds subject otherwise arms
    else
      eval rounds body

end

/-- The tree, evaluated in one state, comes to a value and another state. -/
def Evaluates (e : Expr) (s : State V D) (v : V) (t : State V D) : Prop :=
  ∃ rounds, m.eval rounds e s = some (v, t)

/-- The tree, evaluated in a state, loops forever. -/
def Diverges (e : Expr) (s : State V D) : Prop := ∀ rounds, m.eval rounds e s = none

end Machine

/-! ## Section 2: Trees whose values are held where they are used -/

/-- What a call comes to, out of `null`, what the function computes and the
    arguments. -/
def Intrinsic.result {α : Type} (f : Intrinsic) (null computed : α) (args : List α) : α :=
  match f with
  | print => args.getLastD null
  | printflush | ubind => null
  | rand | getlink | within => computed
  | order o => o.value null args

/-- Is the argument at a position read by a call, whose own value may be used or
    not? -/
def Intrinsic.reads (quiet : String → Bool) (used : Bool) (f : Intrinsic) (i : Nat) : Bool :=
  match f with
  | print | printflush => true
  | rand => (used || !quiet "rand") && i < 1
  | getlink => used && i < 1
  | ubind => i < 1
  | within => used && i < 3
  -- the first argument of `boot` has no use
  | order .boost => i == 1
  | order o => i < o.arity

namespace Expr

mutual

/-- The operand that holds the value of a tree, if it is one that the program
    itself names. -/
def place : Expr → Option String
  | null => some "null"
  | bool value => some (if value then "true" else "false")
  | var name => some name
  | builtin name => some ("@" ++ name)
  | seq _ last => last.place
  | loop _ body => body.place
  | assign _ value => value.place
  | assignBuiltin name _ => some ("@" ++ name)
  | store _ _ value => value.place
  | control _ _ value => value.place
  | call name args =>
    match Intrinsic.ofName? name with
    | some f => f.result (some "null") none (places args)
    | none => none
  | _ => none

/-- The operands that hold the values of arguments. -/
def places : List Expr → List (Option String)
  | [] => []
  | arg :: args => arg.place :: places args

end

/-- The variables that a tree may assign. -/
def assigned (e : Expr) : List String := e.assignedNames.filter isVariable

/-- The operands that a node names itself, but for built-ins and constants. -/
def ownOperands : Expr → List String
  | num literal => [literal]
  | sensor target name => [target, name]
  | e => e.ownIdentifiers

/-- The operands that a tree names, but for built-ins and constants. -/
def operands (e : Expr) : List String := e.nodes.flatMap ownOperands

theorem assigned_subset {child e : Expr} (h : child ∈ e.children) :
    child.assigned ⊆ e.assigned := by
  intro x hx
  obtain ⟨hname, hvariable⟩ := List.mem_filter.mp hx
  obtain ⟨node, hnode, hassigned⟩ := mem_assignedNames.mp hname
  exact List.mem_filter.mpr ⟨mem_assignedNames.mpr ⟨node, hnode.child h, hassigned⟩, hvariable⟩

theorem mem_assigned_assign {name : String} (h : isVariable name = true) (value : Expr) :
    name ∈ (assign name value).assigned :=
  List.mem_filter.mpr ⟨mem_assignedNames.mpr ⟨_, .refl, rfl⟩, h⟩

/-- Evaluating the other trees leaves the value of the tree where it is held. -/
def outlives (e : Expr) (assigned : List String) : Bool :=
  match e.place with
  | some x => !assigned.contains x
  | none => true

mutual

/-- Is each value held until it is used?  What is evaluated in between must not
    assign the variable that holds it, and the leftover of a loop is used only
    where it is `null`.  `used` says whether the value of the tree is used
    itself.  Of operations that are `quiet`, which leave the device alone,
    only the value can be used, so their operands matter only if it is. -/
def stable (quiet : String → Bool) (used : Bool) : Expr → Bool
  | seq rest last => rest.stable quiet false && last.stable quiet used
  | branch cond yes no => cond.stable quiet true && yes.stable quiet used && no.stable quiet used
  | loop cond body =>
    cond.stable quiet true && body.stable quiet false &&
    (!used || !body.hasValue || body.place == some "null")
  -- without arms nothing is compared with the subject
  | select subject arms otherwise =>
    subject.stable quiet !arms.isEmpty && stableArms quiet used subject arms &&
    otherwise.stable quiet used
  | assign _ value => value.stable quiet true
  | assignBuiltin _ value => value.stable quiet false
  | load _ address => address.stable quiet used
  | store _ address value =>
    address.stable quiet true && value.stable quiet true && address.outlives value.assigned
  | control _ _ value => value.stable quiet true
  | unary op operand => operand.stable quiet (used || !quiet ((unaryOperation? op).getD op))
  | binary op left right =>
    let needed := used || !quiet ((binaryOperation? op).getD op)
    left.stable quiet needed && right.stable quiet needed &&
    (!needed || left.outlives right.assigned)
  | call name args =>
    match Intrinsic.ofName? name with
    | some f => stableArgs quiet (f.reads quiet used) args
    | none => true
  | _ => true

/-- Is the value of each argument that is read held until all have been
    evaluated? -/
def stableArgs (quiet : String → Bool) (reads : Nat → Bool) : List Expr → Bool
  | [] => true
  | arg :: args =>
    arg.stable quiet (reads 0) && (!reads 0 || arg.outlives (args.flatMap assigned)) &&
    stableArgs quiet (fun i => reads (i + 1)) args

/-- Is the value of the subject held until all patterns have been evaluated?
    After a body nothing is compared with it. -/
def stableArms (quiet : String → Bool) (used : Bool) (subject : Expr) :
    List (Expr × Expr) → Bool
  | [] => true
  | (pattern, body) :: arms =>
    pattern.stable quiet true && subject.outlives pattern.assigned && body.stable quiet used &&
    stableArms quiet used subject arms

end

end Expr

/-! ## Section 3: What evaluation leaves alone -/

/-- A computation that changes no value but those of the given variables. -/
def Eval.Spares {α : Type} (c : Eval V D α) (xs : List String) : Prop :=
  ∀ s a t, c s = some (a, t) → ∀ x, x ∉ xs → t.store x = s.store x

namespace Eval

variable {α β : Type} {xs ys : List String}

theorem spares_pure (a : α) : Spares (pure a : Eval V D α) xs := by
  intro s b t h x _
  obtain ⟨rfl, rfl⟩ := Prod.mk.inj (Option.some.inj h)
  rfl

theorem spares_get : Spares (get : Eval V D (State V D)) xs := by
  intro s b t h x _
  obtain ⟨rfl, rfl⟩ := Prod.mk.inj (Option.some.inj h)
  rfl

theorem Spares.bind {c : Eval V D α} {f : α → Eval V D β} (hc : Spares c xs)
    (hf : ∀ a, Spares (f a) xs) : Spares (c >>= f) xs := by
  intro s b t h x hx
  have hbind : (c >>= f) s = (c s).bind fun p => f p.1 p.2 := rfl
  rw [hbind] at h
  obtain ⟨⟨a, u⟩, hrun, hrest⟩ := Option.bind_eq_some_iff.mp h
  rw [hf a u b t hrest x hx, hc s a u hrun x hx]

theorem Spares.discard {c : Eval V D α} (hc : Spares c xs) : Spares (discard c) xs :=
  hc.bind fun _ => spares_pure _

theorem Spares.mono {c : Eval V D α} (hc : Spares c xs) (hsub : xs ⊆ ys) : Spares c ys :=
  fun s a t h x hx => hc s a t h x fun hmem => hx (hsub hmem)

/-- Changing the device changes no value. -/
theorem spares_modify_device (f : State V D → D) :
    Spares (modify fun s => s.withDevice (f s) : Eval V D Unit) xs := by
  intro s b t h x _
  obtain ⟨rfl, rfl⟩ := Prod.mk.inj (Option.some.inj h)
  rfl

theorem spares_modify_set {name : String} (v : V) (hname : isVariable name = true → name ∈ xs) :
    Spares (modify (·.set name v) : Eval V D Unit) xs := by
  intro s b t h x hx
  obtain ⟨rfl, rfl⟩ := Prod.mk.inj (Option.some.inj h)
  rw [State.set_store, if_neg]
  rintro ⟨hvariable, rfl⟩
  exact hx (hname hvariable)

end Eval

namespace Machine

open Eval

variable (m : Machine V D) {xs : List String}

theorem spares_repeatWhile {cond body : Eval V D V} (hcond : Spares cond xs)
    (hbody : Spares body xs) (rounds : Nat) : Spares (m.repeatWhile cond body rounds) xs := by
  induction rounds with
  | zero => intro s a t h; exact absurd h (by simp [repeatWhile])
  | succ rounds ih =>
    refine hcond.bind fun v => ?_
    by_cases hv : m.taken v = true
    · simp only [hv, if_true]
      exact hbody.discard.bind fun _ => ih
    · simp only [hv]
      exact spares_pure _

theorem spares_compute (operation : String) (operands : List V) :
    Spares (m.compute operation operands) xs := by
  intro s a t h x _
  obtain ⟨rfl, rfl⟩ := Prod.mk.inj (Option.some.inj h)
  rfl

theorem spares_invoke (f : Intrinsic) (args : List V) : Spares (m.invoke f args) xs := by
  intro s a t h x _
  cases f <;> obtain ⟨rfl, rfl⟩ := Prod.mk.inj (Option.some.inj h) <;> rfl

theorem spares_evalArgs {rounds : Nat} {args : List Expr}
    (hargs : ∀ arg ∈ args, Spares (m.eval rounds arg) xs) :
    Spares (m.evalArgs rounds args) xs := by
  induction args with
  | nil => exact spares_pure _
  | cons arg args ih =>
    obtain ⟨harg, hargs⟩ := List.forall_mem_cons.mp hargs
    rw [evalArgs]
    exact harg.bind fun v => (ih hargs).bind fun vs => spares_pure _

theorem spares_evalArms {rounds : Nat} {arms : List (Expr × Expr)} (subject : V)
    {otherwise : Eval V D V}
    (harms : ∀ arm ∈ arms, Spares (m.eval rounds arm.1) xs ∧ Spares (m.eval rounds arm.2) xs)
    (hotherwise : Spares otherwise xs) :
    Spares (m.evalArms rounds subject otherwise arms) xs := by
  induction arms with
  | nil => exact hotherwise
  | cons arm arms ih =>
    obtain ⟨⟨hpattern, hbody⟩, harms⟩ := List.forall_mem_cons.mp harms
    rw [evalArms]
    refine hpattern.bind fun v => ?_
    by_cases hv : m.notEqual subject v = true
    · simp only [hv, if_true]
      exact ih harms
    · simp only [hv]
      exact hbody

attribute [local simp] Expr.children Expr.parts

/-- Evaluating a tree changes no value but those of variables it assigns. -/
theorem spares_eval (rounds : Nat) (e : Expr) : Spares (m.eval rounds e) e.assigned := by
  -- each part spares what the whole tree does not assign
  induction e using Expr.children_induction with
  | step e ih =>
    have hpart : ∀ part ∈ e.children, Spares (m.eval rounds part) e.assigned :=
      fun part hmem => (ih part hmem).mono (Expr.assigned_subset hmem)
    cases e with
    | null | bool | str | comment | nop => exact spares_pure _
    | num | var | builtin | sensor => exact spares_get.bind fun _ => spares_pure _
    | seq rest last =>
      exact (hpart rest (by simp)).discard.bind fun _ => hpart last (by simp)
    | branch cond yes no =>
      refine (hpart cond (by simp)).bind fun v => ?_
      by_cases hv : m.taken v = true
      · simp only [hv, if_true]
        exact hpart yes (by simp)
      · simp only [hv]
        exact hpart no (by simp)
    | loop cond body =>
      exact (m.spares_repeatWhile (hpart cond (by simp)) (hpart body (by simp)) rounds).bind
        fun _ => spares_pure _
    | select subject arms otherwise =>
      refine (hpart subject (by simp)).bind fun v => ?_
      refine m.spares_evalArms v (fun arm harm => ?_) (hpart otherwise (by simp))
      obtain ⟨hpattern, hbody⟩ := Expr.mem_children_select harm
      exact ⟨hpart arm.1 hpattern, hpart arm.2 hbody⟩
    | assign name value =>
      refine (hpart value (by simp)).bind fun v => ?_
      exact (spares_modify_set v fun hname => Expr.mem_assigned_assign hname value).bind fun _ =>
        spares_pure _
    | assignBuiltin name value =>
      exact (hpart value (by simp)).discard.bind fun _ => spares_get.bind fun _ => spares_pure _
    | load cell address =>
      exact (hpart address (by simp)).bind fun _ => spares_get.bind fun _ => spares_pure _
    | store cell address value =>
      refine (hpart address (by simp)).bind fun a => (hpart value (by simp)).bind fun v => ?_
      exact (spares_modify_device _).bind fun _ => spares_pure _
    | control property target value =>
      exact (hpart value (by simp)).bind fun v =>
        (spares_modify_device _).bind fun _ => spares_pure _
    | unary op operand => exact (hpart operand (by simp)).bind fun v => m.spares_compute _ _
    | binary op left right =>
      exact (hpart left (by simp)).bind fun l => (hpart right (by simp)).bind fun r =>
        m.spares_compute _ _
    | call name args =>
      rw [Expr.children_call] at hpart
      refine (m.spares_evalArgs hpart).bind fun vs => ?_
      cases Intrinsic.ofName? name with
      | none => exact spares_pure _
      | some f => exact m.spares_invoke f vs

end Machine

end Mlog
