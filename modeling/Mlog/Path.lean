import Mlog.Text.Split

/-! # Paths

    A path is a text; what it names is read off its parts between slashes.
    Empty parts and `.` name nothing, except that a path can be anchored: at
    the root by a slash in front, or at the working directory by `.` as its
    first part.  No operation here changes more of the text than it has to,
    and none looks at any file. -/

namespace Mlog

/-- A path. -/
structure Path where
  text : String
deriving DecidableEq, Repr

namespace Path

/-! ## Section 1: Joining -/

/-- Does the path start at the root? -/
def isAbsolute (p : Path) : Bool := p.text.toList.head? == some '/'

/-- The path `b` taken from `a`.  An absolute path stays what it is; otherwise
    one slash is put between, unless `a` is empty or ends in one. -/
def join (a b : Path) : Path :=
  if b.isAbsolute then b
  else if a.text.toList.isEmpty || a.text.toList.getLast? == some '/' then ⟨a.text ++ b.text⟩
  else ⟨a.text ++ "/" ++ b.text⟩

/-! ## Section 2: Parts -/

/-- The anchor of a path, which is `/`, `.` or nothing, and the text after
    it. -/
def anchored : List Char → List Char × List Char
  | '/' :: rest => (['/'], rest)
  | ['.'] => (['.'], [])
  | '.' :: '/' :: rest => (['.'], '/' :: rest)
  | rest => ([], rest)

/-- Does a part name nothing? -/
def isFiller (part : List Char) : Bool := part.isEmpty || part == ['.']

/-- The parts after the anchor, the last one first; what names nothing at the
    end of the path is left out. -/
def partsBack (p : Path) : List (List Char) :=
  ((anchored p.text.toList).2.splitOn '/').reverse.dropWhile isFiller

/-- The path with given parts after its anchor, the last one first. -/
def ofPartsBack (anchor : List Char) (parts : List (List Char)) : Path :=
  ⟨String.ofList (anchor ++ ['/'].intercalate parts.reverse)⟩

/-- The last part if it is the name of a file or directory, and not `..`. -/
def name? (p : Path) : Option (List Char) :=
  match p.partsBack with
  | name :: _ => if name = ['.', '.'] then none else some name
  | [] => none

/-! ## Section 3: Parents -/

/-- The paths above an anchor, and the anchor itself if it is a path. -/
def anchorParents (anchor : List Char) : List Path :=
  if anchor = ['.'] then [⟨"."⟩, ⟨""⟩] else [⟨String.ofList anchor⟩]

/-- The path with given parts, the last one first, and those above it, from
    the inside out. -/
def upward (anchor : List Char) : List (List Char) → List Path
  | [] => anchorParents anchor
  | part :: parts =>
    if isFiller part then upward anchor parts
    else ofPartsBack anchor (part :: parts) :: upward anchor parts

/-- The paths above a path, from the inside out: each is the one before
    without its last part.  Above a relative path, the last one is empty. -/
def parents (p : Path) : List Path :=
  let anchor := (anchored p.text.toList).1
  match p.partsBack with
  | [] => (anchorParents anchor).tail
  | _ :: parts => upward anchor parts

/-- The path without its last part. -/
def parent? (p : Path) : Option Path := p.parents.head?

/-! ## Section 4: Extensions -/

/-- What stands before and after the last point of a name.  A point in front
    of everything does not count. -/
def splitName (name : List Char) : Option (List Char × List Char) :=
  match Text.cutAtLast '.' name with
  | some ([], _) => none
  | parts => parts

/-- The extension of the name of a path. -/
def extension? (p : Path) : Option (List Char) := (p.name?.bind splitName).map (·.2)

/-- The path with its extension, if it has one, replaced by another.  A path
    that names nothing stays as it is. -/
def setExtension (p : Path) (extension : String) : Path :=
  match p.partsBack with
  | name :: parts =>
    if name = ['.', '.'] then p
    else
      let stem := ((splitName name).map (·.1)).getD name
      ⟨(ofPartsBack (anchored p.text.toList).1 (stem :: parts)).text ++ "." ++ extension⟩
  | [] => p

/-- The path without the characters of its extension at the end. -/
def dropExtension (p : Path) : Path :=
  match p.extension? with
  | some extension => ⟨String.ofList (p.text.toList.take (p.text.toList.length - extension.length))⟩
  | none => p

/-- The path with another extension: the old one is dropped first, then the
    new one is put in place of what is left of it. -/
def withExtension (p : Path) (extension : String) : Path :=
  p.dropExtension.setExtension extension

end Path

end Mlog
