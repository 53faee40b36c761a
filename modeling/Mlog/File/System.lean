import Mlog.Path

/-! # File systems

    What the command line asks of the files around it.  `FileSystem` names
    the questions and requests, for any monad that can answer them; a request
    that cannot be met gives a `FileError`.  `makeDirectories` is built on
    them. -/

namespace Mlog

/-- Why a file or directory cannot be read, made or written. -/
inductive FileError
  | notFound
  | alreadyExists
  | notDirectory
  | isDirectory
  /-- The file does not hold UTF-8 text. -/
  | notText
  /-- Anything else that can go wrong outside. -/
  | other (description : String)
deriving DecidableEq, Repr

/-- The words for an error. -/
def FileError.message : FileError → String
  | notFound => "No such file or directory (os error 2)"
  | alreadyExists => "File exists (os error 17)"
  | notDirectory => "Not a directory (os error 20)"
  | isDirectory => "Is a directory (os error 21)"
  | notText => "stream did not contain valid UTF-8"
  | other description => description

/-- Access to files. -/
class FileSystem (m : Type → Type) where
  /-- Is there a directory at the path? -/
  isDirectory : Path → m Bool
  /-- Is there a file or directory at the path? -/
  isThere : Path → m Bool
  /-- Do two paths lead to the same file or directory? -/
  isSame : Path → Path → m Bool
  /-- The text in a file. -/
  readText : Path → m (Except FileError String)
  /-- Makes a directory in one that is there. -/
  makeDirectory : Path → m (Except FileError Unit)
  /-- Puts a text into a file, which is made if it is missing. -/
  writeText : Path → String → m (Except FileError Unit)

namespace FileSystem

variable {m : Type → Type} [Monad m] [FileSystem m]

/-- Makes a directory if it is not there, in one that is. -/
def ensureDirectory (p : Path) : m (Except FileError Unit) := do
  match ← makeDirectory p with
  | .ok () => return .ok ()
  | .error e => if ← isDirectory p then return .ok () else return .error e

/-- Makes the first of some directories and, where it has to, the others,
    which are those above it from the inside out. -/
def makeUpward : List Path → m (Except FileError Unit)
  | [] => return .ok ()
  | p :: above => do
    if p.text = "" then
      return .ok ()
    else
      match ← ensureDirectory p with
      | .error .notFound =>
        match ← makeUpward above with
        | .ok () => ensureDirectory p
        | .error e => return .error e
      | result => return result

/-- Makes a directory, and those above it that are missing. -/
def makeDirectories (p : Path) : m (Except FileError Unit) := makeUpward (p :: p.parents)

end FileSystem

end Mlog
