/-! # Logic instructions

    A Logic program is a flat list of instructions, one a line: a keyword and
    its operands, which are written as they are, with spaces between. -/

namespace Mlog

/-! ## Section 1: Instructions -/

/-- What an instruction does. -/
inductive Opcode
  /-- `set dest value` -/
  | set
  /-- `op operation dest operands` -/
  | op
  /-- `jump label condition operands` -/
  | jump
  /-- Names the place of the next instruction. -/
  | label
  /-- Ends the program. -/
  | end_
  /-- `read dest cell address` -/
  | read
  /-- `write value cell address` -/
  | write
  /-- `control property block value` -/
  | control
  /-- `sensor dest block property` -/
  | sensor
  /-- `getlink dest index` -/
  | getlink
  | print
  | printflush
  | ubind
  /-- `ucontrol command operands` -/
  | ucontrol
deriving DecidableEq, Repr

namespace Opcode

/-- The keyword of an instruction. -/
def keyword : Opcode → String
  | set => "set"
  | op => "op"
  | jump => "jump"
  | label => "label"
  | end_ => "end"
  | read => "read"
  | write => "write"
  | control => "control"
  | sensor => "sensor"
  | getlink => "getlink"
  | print => "print"
  | printflush => "printflush"
  | ubind => "ubind"
  | ucontrol => "ucontrol"

/-- All kinds of instructions. -/
def all : List Opcode :=
  [set, op, jump, label, end_, read, write, control, sensor, getlink, print, printflush, ubind,
   ucontrol]

/-- The kind of instruction with a given keyword. -/
def ofKeyword? (s : String) : Option Opcode := all.find? (·.keyword = s)

theorem ofKeyword?_keyword (o : Opcode) : ofKeyword? o.keyword = some o := by
  cases o <;> decide

end Opcode

/-- A line of a Logic program.  An operand is a variable, a built-in with its
    `@`, a number, a quoted string, a label, or a word of the instruction. -/
structure Instruction where
  opcode : Opcode
  operands : List String
deriving DecidableEq, Repr

namespace Instruction

/-- Gives a variable a value. -/
def set (dest value : String) : Instruction := ⟨.set, [dest, value]⟩

/-- Gives a variable the result of an operation. -/
def op (operation dest : String) (operands : List String) : Instruction :=
  ⟨.op, operation :: dest :: operands⟩

/-- Goes on at a label. -/
def jumpAlways (label : String) : Instruction := ⟨.jump, [label, "always"]⟩

/-- Goes on at a label if two operands differ. -/
def jumpNotEqual (label a b : String) : Instruction := ⟨.jump, [label, "notEqual", a, b]⟩

/-- Names a place in the program. -/
def label (name : String) : Instruction := ⟨.label, [name]⟩

/-- Ends the program. -/
def end_ : Instruction := ⟨.end_, []⟩

/-- Gives a variable the content of a memory cell. -/
def read (dest cell address : String) : Instruction := ⟨.read, [dest, cell, address]⟩

/-- Writes into a memory cell. -/
def write (value cell address : String) : Instruction := ⟨.write, [value, cell, address]⟩

/-- Sets a property of a block. -/
def control (property target value : String) : Instruction := ⟨.control, [property, target, value]⟩

/-- Gives a variable the value of a property of a block. -/
def sensor (dest target property : String) : Instruction := ⟨.sensor, [dest, target, property]⟩

/-- Gives a variable the block that is linked under an index. -/
def getlink (dest index : String) : Instruction := ⟨.getlink, [dest, index]⟩

/-- Adds to the text buffer. -/
def print (value : String) : Instruction := ⟨.print, [value]⟩

/-- Writes the text buffer to a block. -/
def printflush (block : String) : Instruction := ⟨.printflush, [block]⟩

/-- Takes control of the next unit of a type. -/
def ubind (type : String) : Instruction := ⟨.ubind, [type]⟩

/-- Gives an order to the unit under control. -/
def ucontrol (command : String) (operands : List String) : Instruction :=
  ⟨.ucontrol, command :: operands⟩

/-! ## Section 2: Listings -/

/-- The line of an instruction. -/
def text (i : Instruction) : String := String.intercalate " " (i.opcode.keyword :: i.operands)

end Instruction

/-- The text of a program: each instruction on a line of its own. -/
def listing (program : List Instruction) : String :=
  String.join (program.map fun i => i.text ++ "\n")

end Mlog
