import Mlog.Proofs.Labels
import Mlog.Proofs.Spelling

/-! # A machine that runs Logic programs

    The machine is abstract: what the values are, what the operations
    compute, what the blocks and units around the processor answer and how
    orders change them is left open and collected in a `Machine`.  Fixed is
    what the processor itself does: where operands are looked up, where
    results are stored, and which instruction comes next.

    A configuration holds the rest of the program that is still to be run.  A
    jump goes on with the program from a label on, a label does nothing, and
    the machine halts at `end`. -/

namespace Mlog

/-! ## Section 1: Operands -/

namespace Text

/-- A text between double quotes. -/
def isQuoted (s : String) : Bool :=
  match s.toList with
  | '"' :: cs => cs.getLast? == some '"'
  | _ => false

end Text

/-- The operands that stand for a fixed value: `null`, the truth values,
    numbers and quoted texts. -/
def isConstant (operand : String) : Bool :=
  operand == "null" || operand == "true" || operand == "false" ||
  Text.isNumber operand || Text.isQuoted operand

/-- The operands that the game provides, such as `@unit`. -/
def isBuiltin (operand : String) : Bool := operand.toList.head? == some '@'

/-- The operands that instructions can store a result in. -/
def isVariable (operand : String) : Bool := !isConstant operand && !isBuiltin operand

theorem isConstant_null : isConstant "null" = true := rfl

theorem isConstant_bool (b : Bool) : isConstant (if b then "true" else "false") = true := by
  cases b <;> rfl

theorem isConstant_quoted (s : String) : isConstant (Text.quoted s) = true := by
  have hquoted : Text.isQuoted (Text.quoted s) = true := by
    simp [Text.isQuoted, Text.quoted]
  simp [isConstant, hquoted]

/-- A temporary variable is a variable. -/
theorem isVariable_tempName (n : Nat) : isVariable (tempName n) = true := by
  have hchars : (tempName n).toList = 't' :: 'm' :: 'p' :: (toString n).toList := by
    simp [tempName]
  have hne : ∀ s : String, s.toList.take 2 ≠ ['t', 'm'] → (tempName n == s) = false := by
    intro s hs
    refine beq_false_of_ne fun heq => hs ?_
    rw [← heq, hchars]
    rfl
  have hnumber : Text.isNumber (tempName n) = false := by
    rw [Text.isNumber, hchars]
    exact Bool.eq_false_iff.mpr fun h => absurd (Text.isDigit_of_isNumeral h) (by decide)
  have hquoted : Text.isQuoted (tempName n) = false := by
    rw [Text.isQuoted, hchars]
    rfl
  have hbuiltin : isBuiltin (tempName n) = false := by
    rw [isBuiltin, hchars]
    rfl
  simp [isVariable, isConstant, hnumber, hquoted, hbuiltin, hne "null" (by decide),
    hne "true" (by decide), hne "false" (by decide)]

/-! ## Section 2: States -/

/-- What a program can see and change: the values of the variables and of the
    built-ins, and the blocks and units around the processor. -/
structure State (V D : Type) where
  store : String → V
  device : D

/-- Everything about the world that the processor itself does not settle:
    values of type `V`, blocks and units in a state of type `D`. -/
structure Machine (V D : Type) where
  /-- The value of a constant operand. -/
  constant : String → V
  /-- Do two values differ, as a conditional jump sees it? -/
  notEqual : V → V → Bool
  /-- The result of an operation.  That of `rand` depends on the device, which
      holds the state of the generator. -/
  operate : String → List V → D → V × D
  /-- The content of a memory cell at an address. -/
  readCell : D → V → V → V
  /-- The value of a property of a block. -/
  sense : D → V → V → V
  /-- The block that is linked under an index. -/
  linked : D → V → V
  /-- Is the unit within a radius of a place? -/
  isWithin : D → List V → V
  /-- Writes a value into a memory cell at an address. -/
  writeCell : D → V → V → V → D
  /-- Sets a property of a block. -/
  control : String → D → V → V → D
  print : D → V → D
  printflush : D → V → D
  ubind : D → V → D
  /-- Gives the unit under control an order. -/
  order : String → D → List V → D

variable {V D : Type}

/-- Stores a value in a variable.  Constants and built-ins stay as they are. -/
def State.set (s : State V D) (dest : String) (v : V) : State V D :=
  if isVariable dest then { s with store := fun x => if x = dest then v else s.store x } else s

/-- The same values with the device in another state. -/
def State.withDevice (s : State V D) (d : D) : State V D := { s with device := d }

@[simp] theorem State.withDevice_device (s : State V D) (d : D) : (s.withDevice d).device = d := rfl

@[simp] theorem State.withDevice_store (s : State V D) (d : D) :
    (s.withDevice d).store = s.store := rfl

@[simp] theorem State.set_device (s : State V D) (dest : String) (v : V) :
    (s.set dest v).device = s.device := by
  unfold State.set
  split <;> rfl

theorem State.set_store (s : State V D) (dest : String) (v : V) (x : String) :
    (s.set dest v).store x = if isVariable dest ∧ x = dest then v else s.store x := by
  unfold State.set
  by_cases hdest : isVariable dest = true <;> simp [hdest]

theorem State.set_store_of_ne (s : State V D) {dest x : String} (hne : x ≠ dest) (v : V) :
    (s.set dest v).store x = s.store x := by
  rw [State.set_store, if_neg fun h => hne h.2]

/-! ## Section 3: Instructions -/

/-- What is still to be run, and the state to run it from. -/
structure Config (V D : Type) where
  code : List Instruction
  state : State V D

/-- The program from a label on; nothing if there is no such label. -/
def codeFrom (label : String) (program : List Instruction) : List Instruction :=
  program.dropWhile (· ≠ .label label)

namespace Machine

variable (m : Machine V D)

/-- The value of `null`. -/
def null : V := m.constant "null"

/-- The value of an operand. -/
def lookup (s : State V D) (operand : String) : V :=
  if isConstant operand then m.constant operand else s.store operand

/-- A condition is taken unless its value differs from `true`. -/
def taken (condition : V) : Bool := !m.notEqual condition (m.constant "true")

/-- Runs one instruction, `rest` being what follows it.  There is no next
    configuration after `end` and after what is no instruction. -/
def exec (program : List Instruction) (i : Instruction) (rest : List Instruction)
    (s : State V D) : Option (Config V D) :=
  match i.opcode, i.operands with
  | .set, [dest, value] => some ⟨rest, s.set dest (m.lookup s value)⟩
  | .op, operation :: dest :: operands =>
    let (v, d) := m.operate operation (operands.map (m.lookup s)) s.device
    some ⟨rest, (s.withDevice d).set dest v⟩
  | .jump, [label, "always"] => some ⟨codeFrom label program, s⟩
  | .jump, [label, "notEqual", a, b] =>
    some ⟨if m.notEqual (m.lookup s a) (m.lookup s b) then codeFrom label program else rest, s⟩
  | .label, [_] => some ⟨rest, s⟩
  | .read, [dest, cell, address] =>
    some ⟨rest, s.set dest (m.readCell s.device (m.lookup s cell) (m.lookup s address))⟩
  | .write, [value, cell, address] =>
    some ⟨rest, s.withDevice
      (m.writeCell s.device (m.lookup s cell) (m.lookup s address) (m.lookup s value))⟩
  | .control, [property, target, value] =>
    some ⟨rest, s.withDevice (m.control property s.device (m.lookup s target) (m.lookup s value))⟩
  | .sensor, [dest, target, property] =>
    some ⟨rest, s.set dest (m.sense s.device (m.lookup s target) (m.lookup s property))⟩
  | .getlink, [dest, index] => some ⟨rest, s.set dest (m.linked s.device (m.lookup s index))⟩
  | .print, [value] => some ⟨rest, s.withDevice (m.print s.device (m.lookup s value))⟩
  | .printflush, [block] =>
    some ⟨rest, s.withDevice (m.printflush s.device (m.lookup s block))⟩
  | .ubind, [type] => some ⟨rest, s.withDevice (m.ubind s.device (m.lookup s type))⟩
  -- the one order that has a result
  | .ucontrol, ["within", x, y, radius, dest] =>
    some ⟨rest, s.set dest (m.isWithin s.device ([x, y, radius].map (m.lookup s)))⟩
  | .ucontrol, command :: operands =>
    some ⟨rest, s.withDevice (m.order command s.device (operands.map (m.lookup s)))⟩
  | _, _ => none

/-- Takes one step. -/
def step (program : List Instruction) (c : Config V D) : Option (Config V D) :=
  match c.code with
  | [] => none
  | i :: rest => m.exec program i rest c.state

/-- Takes a number of steps. -/
def run (program : List Instruction) : Nat → Config V D → Option (Config V D)
  | 0, c => some c
  | n + 1, c => (m.step program c).bind (run program n)

theorem run_add (program : List Instruction) (k n : Nat) (c : Config V D) :
    m.run program (k + n) c = (m.run program k c).bind (m.run program n) := by
  induction k generalizing c with
  | zero => rw [Nat.zero_add]; rfl
  | succ k ih =>
    rw [Nat.succ_add]
    cases hstep : m.step program c with
    | none => simp [run, hstep]
    | some c' => simp [run, hstep, ih]

/-- The program, started in one state, comes to its `end` in another. -/
def Halts (program : List Instruction) (s t : State V D) : Prop :=
  ∃ n rest, m.run program n ⟨program, s⟩ = some ⟨.end_ :: rest, t⟩

/-- However many steps the program, started in a state, has taken, there is
    one more. -/
def RunsForever (program : List Instruction) (s : State V D) : Prop :=
  ∀ n, (m.run program n ⟨program, s⟩).isSome

/-! ## Section 4: One step of each instruction -/

section

variable (program rest : List Instruction) (s : State V D)

theorem step_set (dest value : String) :
    m.step program ⟨.set dest value :: rest, s⟩ = some ⟨rest, s.set dest (m.lookup s value)⟩ := rfl

theorem step_op (operation dest : String) (operands : List String) :
    m.step program ⟨.op operation dest operands :: rest, s⟩ =
      some ⟨rest,
        (s.withDevice (m.operate operation (operands.map (m.lookup s)) s.device).2).set dest
          (m.operate operation (operands.map (m.lookup s)) s.device).1⟩ := rfl

theorem step_jumpAlways (label : String) :
    m.step program ⟨.jumpAlways label :: rest, s⟩ = some ⟨codeFrom label program, s⟩ := rfl

theorem step_jumpNotEqual (label a b : String) :
    m.step program ⟨.jumpNotEqual label a b :: rest, s⟩ =
      some ⟨if m.notEqual (m.lookup s a) (m.lookup s b) then codeFrom label program else rest, s⟩ :=
  rfl

theorem step_label (label : String) :
    m.step program ⟨.label label :: rest, s⟩ = some ⟨rest, s⟩ := rfl

theorem step_read (dest cell address : String) :
    m.step program ⟨.read dest cell address :: rest, s⟩ =
      some ⟨rest, s.set dest (m.readCell s.device (m.lookup s cell) (m.lookup s address))⟩ := rfl

theorem step_write (value cell address : String) :
    m.step program ⟨.write value cell address :: rest, s⟩ =
      some ⟨rest, s.withDevice
        (m.writeCell s.device (m.lookup s cell) (m.lookup s address) (m.lookup s value))⟩ := rfl

theorem step_control (property target value : String) :
    m.step program ⟨.control property target value :: rest, s⟩ =
      some ⟨rest, s.withDevice
        (m.control property s.device (m.lookup s target) (m.lookup s value))⟩ := rfl

theorem step_sensor (dest target property : String) :
    m.step program ⟨.sensor dest target property :: rest, s⟩ =
      some ⟨rest, s.set dest (m.sense s.device (m.lookup s target) (m.lookup s property))⟩ := rfl

theorem step_getlink (dest index : String) :
    m.step program ⟨.getlink dest index :: rest, s⟩ =
      some ⟨rest, s.set dest (m.linked s.device (m.lookup s index))⟩ := rfl

theorem step_print (value : String) :
    m.step program ⟨.print value :: rest, s⟩ =
      some ⟨rest, s.withDevice (m.print s.device (m.lookup s value))⟩ := rfl

theorem step_printflush (block : String) :
    m.step program ⟨.printflush block :: rest, s⟩ =
      some ⟨rest, s.withDevice (m.printflush s.device (m.lookup s block))⟩ := rfl

theorem step_ubind (type : String) :
    m.step program ⟨.ubind type :: rest, s⟩ =
      some ⟨rest, s.withDevice (m.ubind s.device (m.lookup s type))⟩ := rfl

theorem step_within (x y radius dest : String) :
    m.step program ⟨.ucontrol "within" [x, y, radius, dest] :: rest, s⟩ =
      some ⟨rest, s.set dest (m.isWithin s.device ([x, y, radius].map (m.lookup s)))⟩ := rfl

theorem step_order (o : Order) (operands : List String) :
    m.step program ⟨.ucontrol o.command operands :: rest, s⟩ =
      some ⟨rest, s.withDevice (m.order o.command s.device (operands.map (m.lookup s)))⟩ := by
  cases o <;> rfl

theorem step_end : m.step program ⟨.end_ :: rest, s⟩ = none := rfl

end

/-! ## Section 5: Ends of runs -/

/-- No step is taken after `end`. -/
theorem run_end {program rest : List Instruction} {s : State V D} {n : Nat} {c : Config V D}
    (h : m.run program n ⟨.end_ :: rest, s⟩ = some c) : c = ⟨.end_ :: rest, s⟩ := by
  cases n with
  | zero => exact (Option.some.inj h).symm
  | succ n =>
    rw [run, m.step_end] at h
    exact absurd h (by simp)

/-- A program comes to its end in one state only. -/
theorem Halts.unique {program : List Instruction} {s t t' : State V D}
    (h : m.Halts program s t) (h' : m.Halts program s t') : t = t' := by
  obtain ⟨n, rest, hrun⟩ := h
  obtain ⟨n', rest', hrun'⟩ := h'
  rcases Nat.le_total n n' with hle | hle
  · obtain ⟨d, rfl⟩ := Nat.exists_eq_add_of_le hle
    rw [run_add, hrun] at hrun'
    exact (congrArg Config.state (m.run_end hrun')).symm
  · obtain ⟨d, rfl⟩ := Nat.exists_eq_add_of_le hle
    rw [run_add, hrun'] at hrun
    exact congrArg Config.state (m.run_end hrun)

/-- A program that comes to its end does not run forever. -/
theorem Halts.not_runsForever {program : List Instruction} {s t : State V D}
    (h : m.Halts program s t) : ¬ m.RunsForever program s := by
  intro hforever
  obtain ⟨n, rest, hrun⟩ := h
  have hnext := hforever (n + 1)
  rw [run_add, hrun, Option.bind_some, run, m.step_end] at hnext
  exact absurd hnext (by simp)

end Machine

/-- If no label is defined twice, the program from a label on is what follows
    the place where the label is defined. -/
theorem codeFrom_eq {program rest : List Instruction} {label : String}
    (hnodup : (labelsIn program).Nodup) (hsuffix : .label label :: rest <:+ program) :
    codeFrom label program = .label label :: rest := by
  obtain ⟨before, rfl⟩ := hsuffix
  have hbefore : ∀ i ∈ before, i ≠ .label label := by
    rintro i hi rfl
    rw [labelsIn_append, labelsIn_label] at hnodup
    have hmem : label ∈ labelsIn before := List.mem_filterMap.mpr ⟨_, hi, rfl⟩
    exact (List.nodup_append.mp hnodup).2.2 label hmem label List.mem_cons_self rfl
  unfold codeFrom
  rw [List.dropWhile_append_of_pos (by simpa using hbefore)]
  simp

end Mlog
