import Mlog.Path
import Mlog.Source.Diagnostic
import Mlog.Text.Space

/-! # Project manifests

    A manifest is a text of lines: headers in square brackets, settings
    `key = value`, and comments after `#`.  Only the settings below a
    `[project]` header count, and of several for one key the last one. -/

namespace Mlog

/-! ## Section 1: Lines -/

/-- What a line of a manifest says. -/
inductive ManifestLine
  | header (title : String)
  | setting (key value : String)
  /-- A blank line, a comment, or a line without meaning. -/
  | nothing
deriving DecidableEq, Repr

/-- Reads the inside of a text in square brackets. -/
def bracketed? (cs : List Char) : Option (List Char) :=
  match cs with
  | '[' :: rest => if rest.getLast? = some ']' then some rest.dropLast else none
  | _ => none

/-- Reads a line.  Keys and values may stand in double quotes. -/
def ManifestLine.ofText (line : String) : ManifestLine :=
  let cs := Text.trimEnds Text.isSpace line.toList
  if cs.isEmpty || cs.head? == some '#' then .nothing
  else
    match bracketed? cs with
    | some inside => .header (Text.trim (String.ofList inside))
    | none =>
      match Text.cutAt '=' cs with
      | some (key, value) =>
        .setting (Text.trimQuotes (Text.trim (String.ofList key)))
          (Text.trimQuotes (Text.trim (String.ofList value)))
      | none => .nothing

/-! ## Section 2: Settings -/

/-- The settings of a project; one that is not made is empty. -/
structure Settings where
  name : String
  version : String
  entry : String
  output : String
deriving DecidableEq, Repr

namespace Settings

/-- No setting is made. -/
def none : Settings := ⟨"", "", "", ""⟩

/-- Makes a setting; unknown keys are passed over. -/
def assign (s : Settings) (key value : String) : Settings :=
  match key with
  | "name" => { s with name := value }
  | "version" => { s with version := value }
  | "entry" => { s with entry := value }
  | "output" => { s with output := value }
  | _ => s

end Settings

/-- How far a manifest has been read: the last header, and the settings so far. -/
structure ManifestState where
  title : String
  settings : Settings

/-- Reads one more line. -/
def ManifestState.next (s : ManifestState) : ManifestLine → ManifestState
  | .header title => { s with title }
  | .setting key value =>
    if s.title = "project" then { s with settings := s.settings.assign key value } else s
  | .nothing => s

/-- The settings that a manifest makes. -/
def readSettings (manifest : String) : Settings :=
  (((Text.lines manifest).map ManifestLine.ofText).foldl ManifestState.next
    ⟨"", Settings.none⟩).settings

/-! ## Section 3: Projects -/

/-- The name of a manifest file. -/
def manifestName : String := "mindcode.toml"

/-- A project: what it is called, the source text to compile and the listing
    to write. -/
structure Project where
  name : String
  version : String
  entry : Path
  output : Path
  root : Path
deriving DecidableEq, Repr

/-- The report of a manifest without a name. -/
def namelessDiagnostic : Diagnostic :=
  (Diagnostic.general ("missing 'name' in " ++ manifestName)).withHelp
    "add `name = \"...\"` under the [project] section"

/-- The project that settings describe, its files being taken from a
    directory; none without a name.  The source text is `main.mnd` and the
    listing is called like the project, unless they are set. -/
def Settings.project? (s : Settings) (root : Path) : Option Project :=
  if s.name = "" then Option.none
  else
    let entry := if s.entry = "" then "main.mnd" else s.entry
    let output := if s.output = "" then s.name ++ ".mlog" else s.output
    some ⟨s.name, s.version, root.join ⟨entry⟩, root.join ⟨output⟩, root⟩

/-- The project that a manifest describes, in a directory. -/
def readManifest (manifest : String) (root : Path) : Except Diagnostic Project :=
  match (readSettings manifest).project? root with
  | some p => .ok p
  | none => .error namelessDiagnostic

end Mlog
