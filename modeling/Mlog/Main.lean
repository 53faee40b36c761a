import Mlog.Command.Run

/-! # The command line program

    The file system of the machine answers the questions of the command line,
    and what a run comes to is printed. -/

namespace Mlog.Main

/-- The reason that an operation on the machine's files failed. -/
def fileError : IO.Error → FileError
  | .noFileOrDirectory .. => .notFound
  | .alreadyExists .. => .alreadyExists
  | .inappropriateType _ code _ => if code = 20 then .notDirectory else .isDirectory
  | e => .other (toString e)

/-- Runs an operation on the machine's files. -/
def attempt {α : Type} (action : IO α) : IO (Except FileError α) :=
  try
    return .ok (← action)
  catch e =>
    return .error (fileError e)

/-- Opens a path and tries to read a byte. -/
def probe (p : Path) : IO (Except FileError ByteArray) :=
  attempt do (← IO.FS.Handle.mk p.text .read).read 1

/-- Is there a directory at a path?  A directory can be opened, not read. -/
def isDirectory (p : Path) : IO Bool := do
  match ← probe p with
  | .error .isDirectory => return true
  | _ => return false

/-- Is there anything at a path, readable or not? -/
def isThere (p : Path) : IO Bool := do
  match ← probe p with
  | .error .notFound | .error .notDirectory => return false
  | _ => return true

instance : FileSystem IO where
  isDirectory := isDirectory
  isThere := isThere
  isSame p q := do
    match ← attempt (IO.FS.realPath p.text), ← attempt (IO.FS.realPath q.text) with
    | .ok a, .ok b => return (← isThere p) && (← isThere q) && a == b
    | _, _ => return false
  readText p := do
    match ← attempt do (← IO.FS.Handle.mk p.text .read).readBinToEnd with
    | .ok content => return (String.fromUTF8? content).elim (.error .notText) .ok
    | .error e => return .error e
  makeDirectory p := attempt (IO.FS.createDir p.text)
  writeText p text := attempt (IO.FS.writeFile p.text text)

/-- Prints what is wrong with a source text. -/
def printDiagnostic (d : Diagnostic) : IO Unit := do
  let place := match d.span with
    | some s => " at " ++ toString s.start ++ ".." ++ toString s.stop
    | none => ""
  IO.eprintln ("Error" ++ place ++ ": " ++ d.message)
  for note in d.notes do
    IO.eprintln ("  Note: " ++ note)
  if let some help := d.help then
    IO.eprintln ("  Help: " ++ help)

end Mlog.Main

/-- Answers the arguments of the command line. -/
def main (arguments : List String) : IO UInt32 := do
  let outcome ← Mlog.run (m := IO) arguments
  IO.print outcome.stdout
  outcome.diagnostics.forM Mlog.Main.printDiagnostic
  outcome.notices.forM fun notice => IO.eprintln notice.text
  return UInt32.ofNat outcome.exitCode
