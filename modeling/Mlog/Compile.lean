import Mlog.Lower
import Mlog.Parse.Grammar

/-! # Compiling

    From a source text to a tree, to instructions, and to a listing.  Faults
    in the text are all reported before the tokens are looked at, faults in
    the tokens before the tree is lowered, and lowering stops at the first
    error. -/

namespace Mlog

/-- Parses a source text. -/
def parseSource (source : String) : Except (List Diagnostic) Expr :=
  let lexed := lex source
  if lexed.faults.isEmpty then
    (parse lexed.tokens lexed.comments).mapError (·.map SyntaxFault.diagnostic)
  else
    .error lexed.diagnostics

/-- The report of a tree that cannot be lowered; trees know no places. -/
def LoweringError.diagnostic (e : LoweringError) : Diagnostic :=
  (Diagnostic.general e.message).withNote "code generation stops at the first error"

/-- The instructions of a tree; the final `end` is left out where the program
    is to be part of another one. -/
def generateWith (emitEnd : Bool) (program : Expr) : Except LoweringError (List Instruction) :=
  if emitEnd then generate program else ((lower program).runFrom Names.none).1.map Fragment.code

/-- Compiles a source text to instructions. -/
def compileToInstructions (emitEnd : Bool) (source : String) :
    Except (List Diagnostic) (List Instruction) := do
  let program ← parseSource source
  (generateWith emitEnd program).mapError fun e => [e.diagnostic]

/-- Compiles a source text to a listing. -/
def compile (emitEnd : Bool) (source : String) : Except (List Diagnostic) String := do
  return listing (← compileToInstructions emitEnd source)

/-- Can a source text be compiled? -/
def check (source : String) : Except (List Diagnostic) Unit := do
  discard (compileToInstructions true source)

end Mlog
