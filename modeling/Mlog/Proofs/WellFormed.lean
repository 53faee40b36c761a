import Mlog.Proofs.Jumps

/-! # Instructions have the operands that they need

    Each instruction of the target has a fixed shape: so many operands, and for
    some of them a word of a fixed set, such as the operation of an `op` or the
    command of a `ucontrol`, which in turn says how many operands follow.  Code
    has this shape whatever the tree was, in particular for calls with more
    arguments than the function takes.

    * `Glued.isWellFormed`: what one node adds.
    * `listing_emitEnd`: compiling a source text with and without the final `end`.
    * `programs_wellFormed`: programs of trees and of source texts. -/

namespace Mlog

/-! ## Section 1: The shape of an instruction -/

/-- The operations of one operand. -/
def unaryOperations : List String := ["not", "rand"]

/-- The operations of two operands. -/
def binaryOperations : List String :=
  ["add", "sub", "mul", "div", "pow", "equal", "notEqual", "strictEqual", "lessThan", "lessThanEq",
   "greaterThan", "greaterThanEq", "or", "land"]

/-- The commands of a `ucontrol`, each with the number of operands after it. -/
def unitCommands : List (String × Nat) :=
  [("idle", 0), ("pathfind", 0), ("stop", 0), ("payDrop", 0),
   ("flag", 1), ("boost", 1), ("payTake", 1),
   ("move", 2), ("mine", 2), ("itemDrop", 2), ("targetp", 2),
   ("itemTake", 3), ("approach", 3), ("target", 3),
   ("getBlock", 4), ("within", 4),
   ("build", 5)]

namespace Instruction

/-- The instruction has the operands that belong to its kind. -/
def isWellFormed (i : Instruction) : Bool :=
  match i.opcode, i.operands with
  | .set, [_, _] | .getlink, [_, _] => true
  | .read, [_, _, _] | .write, [_, _, _] | .control, [_, _, _] | .sensor, [_, _, _] => true
  | .label, [_] | .print, [_] | .printflush, [_] | .ubind, [_] => true
  | .op, [operation, _, _] => unaryOperations.contains operation
  | .op, [operation, _, _, _] => binaryOperations.contains operation
  | .jump, [_, condition] => condition == "always"
  | .jump, [_, condition, _, _] => condition == "notEqual"
  | .ucontrol, command :: operands => unitCommands.contains (command, operands.length)
  | .end_, [] => true
  | _, _ => false

theorem isWellFormed_ucontrol (command : String) (operands : List String) :
    (ucontrol command operands).isWellFormed = unitCommands.contains (command, operands.length) :=
  rfl

end Instruction

/-! ## Section 2: What one node adds -/

theorem unaryOperation?_contains {op operation : String} (h : unaryOperation? op = some operation) :
    unaryOperations.contains operation = true := by
  unfold unaryOperation? at h
  split at h <;> cases h <;> decide

theorem binaryOperation?_contains {op operation : String}
    (h : binaryOperation? op = some operation) : binaryOperations.contains operation = true := by
  unfold binaryOperation? at h
  split at h <;> cases h <;> decide

/-- The operands of an order are as many as its command has, if there are enough
    arguments. -/
theorem Order.contains_command (o : Order) {args : List String} (h : o.arity ≤ args.length) :
    unitCommands.contains (o.command, (o.operands args).length) = true := by
  have htake : (args.take o.arity).length = o.arity := List.length_take_of_le h
  cases o with
  | boost =>
    -- the first argument is not passed on
    show unitCommands.contains ("boost", ((args.take Order.boost.arity).drop 1).length) = true
    rw [List.length_drop, htake]
    decide
  | _ =>
    simp only [Order.operands, htake]
    decide

/-- The code of a call is well-formed if there are enough arguments, also if there
    are more. -/
theorem Intrinsic.isWellFormed_code (f : Intrinsic) (result : String) {args : List String}
    (h : f.arity ≤ args.length) :
    ∀ i ∈ (f.code result args).code, i.isWellFormed = true := by
  intro i hi
  cases f with
  | print | printflush =>
    obtain ⟨arg, _, rfl⟩ := List.mem_map.mp hi
    rfl
  | rand | getlink | ubind =>
    cases args with
    | nil => exact absurd h (by decide)
    | cons first others =>
      rw [List.mem_singleton.mp hi]
      rfl
  | within =>
    have hthree : (args.take 3).length = 3 := List.length_take_of_le h
    rw [List.mem_singleton.mp hi, Instruction.isWellFormed_ucontrol, List.length_append, hthree]
    rfl
  | order o =>
    rw [List.mem_singleton.mp hi, Instruction.isWellFormed_ucontrol]
    exact o.contains_command h

theorem Glued.isWellFormed {e : Expr} {n n' : Names} {fs : List Fragment} {own : List Instruction}
    {value : Option String} (h : Glued e n fs own value n') :
    ∀ i ∈ own, i.isWellFormed = true := by
  cases h with
  | select subject arms otherwise s as f n hlength =>
    apply List.all_eq_true.mp
    rw [selectCode, Valued.bare_code, Fragment.bare_code, List.nil_append, List.append_nil,
      List.all_append, all_armsCode fun _ _ => rfl]
    rfl
  -- the tables of operations name known ones only
  | unary operand v n hop =>
    intro i hi
    rw [List.mem_singleton.mp hi]
    exact unaryOperation?_contains hop
  | binary left right l r n hop =>
    intro i hi
    rw [List.mem_singleton.mp hi]
    exact binaryOperation?_contains hop
  | call args vs n hname harity =>
    exact Intrinsic.isWellFormed_code _ _ (by simpa using harity)
  | _ =>
    apply List.all_eq_true.mp
    rfl

/-! ## Section 3: Listings with and without `end` -/

theorem listing_append (p q : List Instruction) : listing (p ++ q) = listing p ++ listing q := by
  simp [listing]

/-- The final `end` is all that the option changes. -/
theorem generateWith_true (e : Expr) :
    generateWith true e = (generateWith false e).map (· ++ [.end_]) := by
  show generate e = _
  unfold generate generateWith
  rcases ((lower e).runFrom .none).1 with error | f
  · rfl
  · rfl

/-- What compiling comes to once the source text is a tree. -/
theorem compile_of_parseSource {source : String} {e : Expr} (h : parseSource source = .ok e)
    (emitEnd : Bool) :
    compile emitEnd source =
      ((generateWith emitEnd e).mapError fun error => [error.diagnostic]).map listing := by
  unfold compile compileToInstructions
  rw [h]
  show ((generateWith emitEnd e).mapError fun error => [error.diagnostic]) >>= _ = _
  cases generateWith emitEnd e <;> rfl

/-- Compiling with and without the final `end` fails alike or gives listings that
    differ by the last line. -/
theorem listing_emitEnd (source : String) :
    (∃ faults, compile true source = .error faults ∧ compile false source = .error faults) ∨
      ∃ text, compile false source = .ok text ∧ compile true source = .ok (text ++ "end\n") := by
  cases hparse : parseSource source with
  | error faults =>
    refine .inl ⟨faults, ?_, ?_⟩
    · rw [compile, compileToInstructions, hparse]
      rfl
    · rw [compile, compileToInstructions, hparse]
      rfl
  | ok e =>
    rw [compile_of_parseSource hparse, compile_of_parseSource hparse, generateWith_true]
    cases generateWith false e with
    | error error => exact .inl ⟨[error.diagnostic], rfl, rfl⟩
    | ok program =>
      have hend : listing (program ++ [.end_]) = listing program ++ "end\n" := by
        rw [listing_append]
        rfl
      exact .inr ⟨listing program, rfl, congrArg Except.ok hend⟩

/-! ## Section 4: Programs -/

/-- The program of a tree is well-formed throughout and has its only `end` as its
    last instruction.  So for a source text the option to leave the `end` out
    changes nothing but the last line of the listing. -/
theorem programs_wellFormed :
    (∀ (e : Expr) (program : List Instruction), generate e = .ok program →
      (∀ i ∈ program, i.isWellFormed = true) ∧
      ∃ body, program = body ++ [.end_] ∧ ∀ i ∈ body, i.opcode ≠ .end_) ∧
    ∀ source : String,
      (∃ faults, compile true source = .error faults ∧ compile false source = .error faults) ∨
      ∃ text, compile false source = .ok text ∧ compile true source = .ok (text ++ "end\n") := by
  refine ⟨?_, listing_emitEnd⟩
  intro e program h
  obtain ⟨f, n', hlowers, rfl⟩ := lowers_of_generate h
  constructor
  · intro i hi
    rcases List.mem_append.mp hi with hi | hi
    · exact hlowers.forall_code Glued.isWellFormed i hi
    · rw [List.mem_singleton.mp hi]
      rfl
  · exact ⟨f.code, rfl, fun i hi => hlowers.opcode_ne_end hi⟩

/-- `boot(1, x, y); within(a, b, c, rand(d, e))`: calls with more arguments than
    their functions take. -/
def overfull : Expr :=
  .seq (.call "boot" [.num "1", .var "x", .var "y"])
    (.call "within" [.var "a", .var "b", .var "c", .call "rand" [.var "d", .var "e"]])

theorem overfull_wellFormed :
    ∃ body, generate overfull = .ok (body ++ [.end_]) ∧
      body = [.set "tmp0" "1", .ucontrol "boost" ["x"], .op "rand" "tmp1" ["d"],
        .ucontrol "within" ["a", "b", "c", "tmp2"]] ∧
      (∀ i ∈ body ++ [.end_], i.isWellFormed = true) ∧ ∀ i ∈ body, i.opcode ≠ .end_ := by
  have hrun : generate overfull = .ok ([.set "tmp0" "1", .ucontrol "boost" ["x"],
      .op "rand" "tmp1" ["d"], .ucontrol "within" ["a", "b", "c", "tmp2"]] ++ [.end_]) := rfl
  obtain ⟨hshape, body, heq, hbody⟩ := programs_wellFormed.1 overfull _ hrun
  obtain ⟨rfl, -⟩ := List.append_inj' heq rfl
  exact ⟨_, hrun, rfl, hshape, hbody⟩

end Mlog
