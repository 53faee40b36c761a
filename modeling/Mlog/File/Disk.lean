import Mlog.File.System

/-! # Files as a value

    A disk is a finite tree of regular files and directories, with a working
    directory from which relative paths are taken.  A place in the tree is
    the list of names on the way to it, the innermost one first.

    Paths are followed part by part: `.` and empty parts stay, `..` goes up,
    and a name goes down; only in a directory can there be a next part.  So
    `a/../b` is there only if `a` is.

    Something cannot be made or written only because of what is in the tree; a disk
    that is full, or that does not allow it, is not part of this. -/

namespace Mlog

/-! ## Section 1: The tree -/

/-- A place in the tree: the names on the way, the innermost one first. -/
abbrev Location := List String

/-- What can be at a place. -/
inductive Entry
  | file (content : ByteArray)
  | directory

instance : DecidableEq Entry
  | .file a, .file b =>
    match ByteArray.instDecidableEq a b with
    | .isTrue h => .isTrue (congrArg Entry.file h)
    | .isFalse h => .isFalse fun heq => h (Entry.file.inj heq)
  | .directory, .directory => .isTrue rfl
  | .file _, .directory => .isFalse Entry.noConfusion
  | .directory, .file _ => .isFalse Entry.noConfusion

/-- Files and directories, and the working directory. -/
structure Disk where
  entries : List (Location × Entry)
  workingDirectory : Location

namespace Disk

/-- A disk with an empty working directory. -/
def empty (workingDirectory : Location) : Disk :=
  { entries := (List.range workingDirectory.length).map fun n =>
      (workingDirectory.drop n, .directory)
    workingDirectory }

/-- What is at a place; at the root there is a directory. -/
def entry? (d : Disk) (l : Location) : Option Entry :=
  if l = [] then some .directory else (d.entries.find? (·.1 = l)).map (·.2)

/-- Puts a file or directory at a place, instead of what is there. -/
def put (d : Disk) (l : Location) (e : Entry) : Disk :=
  { d with entries := (l, e) :: d.entries.filter (·.1 ≠ l) }

/-- The files and directories of a disk that another one lacks or has with
    other content. -/
def changesFrom (after before : Disk) : List (Location × Entry) :=
  after.entries.filter fun (l, e) => before.entry? l ≠ some e

/-! ## Section 2: Following paths -/

/-- Follows one part of a path. -/
def step (d : Disk) (l : Location) (part : String) : Except FileError Location :=
  match d.entry? l with
  | none => .error .notFound
  | some (.file _) => .error .notDirectory
  | some .directory =>
    if part = "" ∨ part = "." then .ok l
    else if part = ".." then .ok l.tail
    else if (d.entry? (part :: l)).isSome then .ok (part :: l)
    else .error .notFound

/-- Follows parts of a path, one after the other. -/
def follow (d : Disk) (l : Location) (parts : List String) : Except FileError Location :=
  parts.foldlM d.step l

/-- Where a path starts. -/
def origin (d : Disk) (p : Path) : Location := if p.isAbsolute then [] else d.workingDirectory

/-- The parts of a path; of an empty path there are none. -/
def partsOf (p : Path) : List String := (p.text.toList.splitOn '/').map String.ofList

/-- The place that a path leads to. -/
def locate (d : Disk) (p : Path) : Except FileError Location :=
  if p.text = "" then .error .notFound else d.follow (d.origin p) (partsOf p)

/-! ## Section 3: Reading -/

/-- What a path leads to. -/
def find (d : Disk) (p : Path) : Except FileError Entry := do
  match d.entry? (← d.locate p) with
  | some e => return e
  | none => throw .notFound

/-- Is there a directory at a path? -/
def isDirectory (d : Disk) (p : Path) : Bool :=
  match d.find p with
  | .ok .directory => true
  | _ => false

/-- Is there anything at a path? -/
def isThere (d : Disk) (p : Path) : Bool := (d.find p).toBool

/-- Do two paths lead to the same place? -/
def isSame (d : Disk) (p q : Path) : Bool :=
  match d.locate p, d.locate q with
  | .ok l, .ok m => l = m
  | _, _ => false

/-- The text in a file. -/
def readText (d : Disk) (p : Path) : Except FileError String := do
  match ← d.find p with
  | .directory => throw .isDirectory
  | .file content =>
    match String.fromUTF8? content with
    | some text => return text
    | none => throw .notText

/-! ## Section 4: Writing -/

/-- Where a path to be made leads: the directory that it is made in and its
    last part, slashes at the end left aside.  There is no last part if the
    path is the root. -/
def target (d : Disk) (p : Path) : Except FileError (Location × Option String) := do
  if p.text = "" then throw .notFound
  match (partsOf p).reverse.dropWhile (· = "") with
  | [] => return ([], none)
  | last :: before =>
    -- the last part itself need not be there yet
    let l ← d.follow (d.origin p) before.reverse
    match d.entry? l with
    | some .directory => return (l, some last)
    | some (.file _) => throw .notDirectory
    | none => throw .notFound

/-- Is a last part of a path the name of something that can be made? -/
def isName (part : String) : Bool := part ≠ "." && part ≠ ".."

/-- Makes a directory in one that is there. -/
def makeDirectory (d : Disk) (p : Path) : Except FileError Disk := do
  match ← d.target p with
  | (l, some name) =>
    if isName name ∧ d.entry? (name :: l) = none then return d.put (name :: l) .directory
    else throw .alreadyExists
  | (_, none) => throw .alreadyExists

/-- Puts content into a file.  A path that ends in a slash, `.` or `..` can
    only be a directory.  This fails only where the tree refuses it: there is
    always room for the content. -/
def write (d : Disk) (p : Path) (content : ByteArray) : Except FileError Disk := do
  match ← d.target p with
  | (l, some name) =>
    if isName name ∧ p.text.toList.getLast? ≠ some '/' ∧ d.entry? (name :: l) ≠ some .directory then
      return d.put (name :: l) (.file content)
    else throw .isDirectory
  | (_, none) => throw .isDirectory

/-- Changes a disk, or leaves it as it is if that fails.  Nothing is half
    done. -/
def attempt (change : Disk → Except FileError Disk) (d : Disk) : Except FileError Unit × Disk :=
  match change d with
  | .ok d' => (.ok (), d')
  | .error e => (.error e, d)

end Disk

/-! ## Section 5: A disk as a file system -/

instance : FileSystem (StateM Disk) where
  isDirectory p := return (← get).isDirectory p
  isThere p := return (← get).isThere p
  isSame p q := return (← get).isSame p q
  readText p := return (← get).readText p
  makeDirectory p := modifyGet (Disk.attempt (·.makeDirectory p))
  writeText p text := modifyGet (Disk.attempt (·.write p text.toUTF8))

end Mlog
