/-! # Programs as trees

    Everything in Mindcode is an expression: a whole program, a block, a
    loop.  Names, operators and numbers are kept as they are written.

    `Expr.induction` is the induction principle of the type: the cases of
    `select` and `call` give the hypothesis for each member of their lists. -/

namespace Mlog

/-! ## Section 1: Trees -/

/-- A program or a part of one. -/
inductive Expr
  | null
  | bool (value : Bool)
  /-- A number as it is written, such as `5`, `-1` or `0.25`. -/
  | num (literal : String)
  /-- The text that a string literal stands for. -/
  | str (text : String)
  | var (name : String)
  /-- A value that the game provides, such as `@unit`; named without the sign. -/
  | builtin (name : String)
  /-- One part after another. -/
  | seq (rest last : Expr)
  /-- An `if`; without an else part, `no` is `nop`. -/
  | branch (cond yes no : Expr)
  /-- A `while`. -/
  | loop (cond body : Expr)
  /-- A `case`: each arm is a pattern and what to do on a match. -/
  | select (subject : Expr) (arms : List (Expr × Expr)) (otherwise : Expr)
  | assign (name : String) (value : Expr)
  | assignBuiltin (name : String) (value : Expr)
  /-- Reads a memory cell. -/
  | load (cell : String) (address : Expr)
  /-- Writes a memory cell. -/
  | store (cell : String) (address value : Expr)
  /-- Sets a property of a block. -/
  | control (property target : String) (value : Expr)
  /-- Reads a property of a block, which is named with its `@`. -/
  | sensor (target name : String)
  | unary (op : String) (operand : Expr)
  | binary (op : String) (left right : Expr)
  | call (name : String) (args : List Expr)
  | comment (text : String)
  | nop
deriving Inhabited

namespace Expr

/-! ## Section 2: Induction -/

/-- Induction on trees. -/
@[induction_eliminator]
theorem induction {motive : Expr → Prop}
    (null : motive null)
    (bool : ∀ value, motive (bool value))
    (num : ∀ literal, motive (num literal))
    (str : ∀ text, motive (str text))
    (var : ∀ name, motive (var name))
    (builtin : ∀ name, motive (builtin name))
    (seq : ∀ rest last, motive rest → motive last → motive (seq rest last))
    (branch : ∀ cond yes no, motive cond → motive yes → motive no → motive (branch cond yes no))
    (loop : ∀ cond body, motive cond → motive body → motive (loop cond body))
    (select : ∀ subject arms otherwise, motive subject →
      (∀ arm ∈ arms, motive arm.1 ∧ motive arm.2) → motive otherwise →
      motive (select subject arms otherwise))
    (assign : ∀ name value, motive value → motive (assign name value))
    (assignBuiltin : ∀ name value, motive value → motive (assignBuiltin name value))
    (load : ∀ cell address, motive address → motive (load cell address))
    (store : ∀ cell address value, motive address → motive value →
      motive (store cell address value))
    (control : ∀ property target value, motive value → motive (control property target value))
    (sensor : ∀ target name, motive (sensor target name))
    (unary : ∀ op operand, motive operand → motive (unary op operand))
    (binary : ∀ op left right, motive left → motive right → motive (binary op left right))
    (call : ∀ name args, (∀ arg ∈ args, motive arg) → motive (call name args))
    (comment : ∀ text, motive (comment text))
    (nop : motive nop) (e : Expr) : motive e := by
  -- the arms, the arguments and a single arm have a motive of their own
  refine @Expr.rec motive
    (fun arms => ∀ arm ∈ arms, motive arm.1 ∧ motive arm.2)
    (fun args => ∀ arg ∈ args, motive arg)
    (fun arm => motive arm.1 ∧ motive arm.2)
    null bool num str var builtin seq branch loop select assign assignBuiltin load store
    control sensor unary binary call comment nop ?_ ?_ ?_ ?_ ?_ e
  · exact fun _ h => absurd h (List.not_mem_nil)
  · exact fun _ _ hhead htail => List.forall_mem_cons.mpr ⟨hhead, htail⟩
  · exact fun _ h => absurd h (List.not_mem_nil)
  · exact fun _ _ hhead htail => List.forall_mem_cons.mpr ⟨hhead, htail⟩
  · exact fun _ _ hpattern hbody => ⟨hpattern, hbody⟩

/-! ## Section 3: Statement lists -/

/-- Folds statements into one tree, the first ones innermost: `[a, b, c]`
    becomes `seq (seq a b) c`.  No statement at all is `nop`. -/
def ofStatements : List Expr → Expr
  | [] => nop
  | first :: others => others.foldl seq first

theorem ofStatements_concat {stmts : List Expr} (h : stmts ≠ []) (e : Expr) :
    ofStatements (stmts ++ [e]) = seq (ofStatements stmts) e := by
  cases stmts with
  | nil => exact absurd rfl h
  | cons first others =>
    rw [List.cons_append, ofStatements, List.foldl_append]
    rfl

/-- The statements of a tree that was folded from the left. -/
def statements : Expr → List Expr
  | seq rest last => rest.statements ++ [last]
  | e => [e]

end Expr

end Mlog
