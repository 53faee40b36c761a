import Mlog.Compile
import Mlog.File.System
import Mlog.Project.Manifest

/-! # Projects and source files on a file system -/

namespace Mlog

variable {m : Type → Type} [Monad m] [FileSystem m]

/-- The message about a file that cannot be read. -/
def unreadable (p : Path) (e : FileError) : String :=
  "cannot read '" ++ p.text ++ "': " ++ e.message

/-- Reads the text of a file, or reports why it cannot be read. -/
def readFile (p : Path) : m (Except Diagnostic String) := do
  return (← FileSystem.readText p).mapError fun e => Diagnostic.general (unreadable p e)

/-- Reads the project that a manifest file describes; its files are taken
    from the directory of the manifest. -/
def Project.load (manifest : Path) : m (Except Diagnostic Project) := do
  return (← readFile manifest).bind fun text =>
    readManifest text (manifest.parent?.getD ⟨"."⟩)

/-- The first of some directories that has a manifest: the path of that. -/
def firstManifest : List Path → m (Option Path)
  | [] => return none
  | directory :: others => do
    let manifest := directory.join ⟨manifestName⟩
    if ← FileSystem.isThere manifest then return some manifest else firstManifest others

/-- The manifest in a directory or in the nearest one above it that has one. -/
def Project.find (directory : Path) : m (Option Path) :=
  firstManifest (directory :: directory.parents)

/-- Compiles a source file to a listing. -/
def compileFile (emitEnd : Bool) (p : Path) : m (Except (List Diagnostic) String) := do
  match ← readFile p with
  | .ok source => return compile emitEnd source
  | .error d => return .error [d]

end Mlog
