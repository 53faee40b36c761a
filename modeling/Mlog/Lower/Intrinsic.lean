import Mlog.Lower.Fragment

/-! # Built-in functions

    Mindcode has no functions besides the built-in ones.  Most of them give
    an order to the unit under control.  A call may have more arguments than
    the function takes; all of them are evaluated, and the spare ones are
    not used. -/

namespace Mlog

/-! ## Section 1: Orders to units -/

/-- The orders that a unit can be given by a call without a result of its
    own. -/
inductive Order
  | move | mine | itemDrop | itemTake | flag | approach | idle | pathfind | stop | boost
  | target | targetp | payDrop | payTake | build | getBlock
deriving DecidableEq, Repr

namespace Order

/-- The name of the function that gives an order. -/
def functionName : Order → String
  | move => "move"
  | mine => "mine"
  | itemDrop => "itemDrop"
  | itemTake => "itemTake"
  | flag => "flag"
  | approach => "approach"
  | idle => "idle"
  | pathfind => "pathfind"
  | stop => "stop"
  | boost => "boot"
  | target => "target"
  | targetp => "targetp"
  | payDrop => "payDrop"
  | payTake => "payTake"
  | build => "build"
  | getBlock => "getBlock"

/-- The command of the instruction. -/
def command : Order → String
  | boost => "boost"
  | o => o.functionName

/-- How many arguments the function takes. -/
def arity : Order → Nat
  | idle | pathfind | stop | payDrop => 0
  | flag | payTake => 1
  | move | mine | itemDrop | boost | targetp => 2
  | itemTake | approach | target => 3
  | getBlock => 4
  | build => 5

/-- The operands of the instruction: the arguments that the function takes,
    but for the first one of `boot`, which has no use. -/
def operands {α : Type} (o : Order) (args : List α) : List α :=
  let taken := args.take o.arity
  match o with
  | boost => taken.drop 1
  | _ => taken

/-- The value of the call: what a flag or the boost is set to, otherwise
    `null`. -/
def value {α : Type} (o : Order) (null : α) (args : List α) : α :=
  match o with
  | flag | boost => (o.operands args).getLastD null
  | _ => null

/-- All orders. -/
def all : List Order :=
  [move, mine, itemDrop, itemTake, flag, approach, idle, pathfind, stop, boost, target, targetp,
   payDrop, payTake, build, getBlock]

end Order

/-! ## Section 2: Functions -/

/-- The built-in functions. -/
inductive Intrinsic
  /-- Prints each argument. -/
  | print
  /-- Flushes the text buffer to each argument. -/
  | printflush
  | rand
  | getlink
  | ubind
  /-- Is the unit within a radius of a place? -/
  | within
  | order (order : Order)
deriving DecidableEq, Repr

namespace Intrinsic

/-- The name of a function. -/
def name : Intrinsic → String
  | print => "print"
  | printflush => "printflush"
  | rand => "rand"
  | getlink => "getlink"
  | ubind => "ubind"
  | within => "within"
  | order o => o.functionName

/-- How many arguments a function needs at least. -/
def arity : Intrinsic → Nat
  | print | printflush => 0
  | rand | getlink | ubind => 1
  | within => 3
  | order o => o.arity

/-- All built-in functions. -/
def all : List Intrinsic :=
  [print, printflush, rand, getlink, ubind, within] ++ Order.all.map order

/-- The function with a given name. -/
def ofName? (s : String) : Option Intrinsic := all.find? (·.name = s)

theorem ofName?_name (f : Intrinsic) : ofName? f.name = some f := by
  rcases f with _ | _ | _ | _ | _ | _ | o
  case order => cases o <;> decide
  all_goals decide

/-- The code of a call, given the operands that hold the arguments, of which
    there are enough. -/
def expand (f : Intrinsic) (args : List String) : Lowering Valued :=
  match f with
  | print => pure ⟨args.getLastD "null", args.map .print⟩
  | printflush => pure ⟨"null", args.map .printflush⟩
  | rand => do
    let result ← Lowering.freshTemp
    return ⟨result, [.op "rand" result (args.take 1)]⟩
  | getlink => do
    let result ← Lowering.freshTemp
    return ⟨result, [⟨.getlink, result :: args.take 1⟩]⟩
  | ubind => pure ⟨"null", [⟨.ubind, args.take 1⟩]⟩
  | within => do
    let result ← Lowering.freshTemp
    return ⟨result, [.ucontrol "within" (args.take 3 ++ [result])]⟩
  | order o => pure ⟨o.value "null" args, [.ucontrol o.command (o.operands args)]⟩

end Intrinsic

/-- The code of a call of the function with a given name. -/
def expandCall (name : String) (args : List String) : Lowering Valued :=
  match Intrinsic.ofName? name with
  | none => throw (.unknownFunction name)
  | some f =>
    if args.length < f.arity then throw (.missingArguments name f.arity args.length)
    else f.expand args

end Mlog
