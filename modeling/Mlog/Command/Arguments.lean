import Mlog.Path

/-! # Command-line arguments

    ```
    build INPUT [-o PATH | --stdout] [--no-end]
    check INPUT [--ast]
    --version | --help
    ```

    A value can be attached to its option (`-oPATH`, `--output=PATH`), and
    `--` ends the options.  An option is given at most once.  Arguments are
    read from left to right: the first fault decides, and a call for help or
    for the version is answered before what follows it is looked at. -/

namespace Mlog

/-! ## Section 1: Requests -/

/-- What to build, and how. -/
structure BuildArguments where
  input : Path
  output : Option Path
  stdout : Bool
  noEnd : Bool
deriving DecidableEq, Repr

/-- What to check, and whether to show its tree. -/
structure CheckArguments where
  input : Path
  showTree : Bool
deriving DecidableEq, Repr

/-- What the command line is asked for. -/
inductive Request
  | build (arguments : BuildArguments)
  | check (arguments : CheckArguments)
  | version
  | help
deriving DecidableEq, Repr

/-- Why arguments make no request. -/
inductive UsageError
  | missingCommand
  | unknownCommand (name : String)
  | unexpectedArgument (argument : String)
  | unexpectedValue (argument : String)
  | missingValue (option : String)
  | repeatedOption (option : String)
  | conflict (first second : String)
  | missingInput
deriving DecidableEq, Repr

/-- What is wrong. -/
def UsageError.message : UsageError → String
  | missingCommand => "a command is required: build or check"
  | unknownCommand name => "unrecognized command '" ++ name ++ "'"
  | unexpectedArgument argument => "unexpected argument '" ++ argument ++ "'"
  | unexpectedValue argument => "unexpected value in '" ++ argument ++ "'"
  | missingValue option => "a value is required for '" ++ option ++ "'"
  | repeatedOption option => "'" ++ option ++ "' cannot be used more than once"
  | conflict first second => "'" ++ first ++ "' cannot be used with '" ++ second ++ "'"
  | missingInput => "an input is required"

/-! ## Section 2: Arguments of a command -/

/-- The options that a command knows, by their long names: those that take a
    value, each with its short name, and those that do not. -/
structure Options where
  valued : List (String × Char)
  flags : List String

/-- The arguments of a command read so far. -/
structure Draft where
  input : Option String
  values : List (String × String)
  flags : List String

namespace Draft

/-- Nothing has been read. -/
def empty : Draft := ⟨none, [], []⟩

/-- Takes the input, which is given once and not empty. -/
def setInput (d : Draft) (value : String) : Except UsageError Draft :=
  if value = "" then .error (.missingValue "INPUT")
  else if d.input.isSome then .error (.unexpectedArgument value)
  else .ok { d with input := some value }

/-- Takes the value of an option, which is given once and not empty. -/
def setValue (d : Draft) (option value : String) : Except UsageError Draft :=
  if value = "" then .error (.missingValue option)
  else if d.values.any (·.1 = option) then .error (.repeatedOption option)
  else .ok { d with values := (option, value) :: d.values }

/-- Takes an option without a value, which is given once. -/
def setFlag (d : Draft) (option : String) : Except UsageError Draft :=
  if d.flags.contains option then .error (.repeatedOption option)
  else .ok { d with flags := option :: d.flags }

/-- The value of an option. -/
def value? (d : Draft) (option : String) : Option String :=
  (d.values.find? (·.1 = option)).map (·.2)

end Draft

/-- What one argument is. -/
inductive Argument
  | input (value : String)
  /-- `--`, after which there are no options. -/
  | endOfOptions
  | flag (option : String)
  /-- An option with a value attached or, if there is none, to follow. -/
  | valued (option : String) (attached : Option String)
  | help
deriving DecidableEq, Repr

/-- Is an argument an option by its looks?  A single `-` is not. -/
def looksLikeOption (argument : String) : Bool :=
  match argument.toList with
  | '-' :: _ :: _ => true
  | _ => false

/-- Reads an argument that starts with two dashes. -/
def Argument.ofLong (options : Options) (argument : String) (cs : List Char) :
    Except UsageError Argument :=
  let (name, attached) := match Text.cutAt '=' cs with
    | some (name, value) => (String.ofList name, some (String.ofList value))
    | none => (String.ofList cs, none)
  if options.valued.any (·.1 = name) then .ok (.valued name attached)
  else if options.flags.contains name ∨ name = "help" then
    match attached with
    | some _ => .error (.unexpectedValue argument)
    | none => .ok (if name = "help" then .help else .flag name)
  else .error (.unexpectedArgument argument)

/-- Reads an argument that starts with one dash, before the character `c`. -/
def Argument.ofShort (options : Options) (argument : String) (c : Char) (cs : List Char) :
    Except UsageError Argument :=
  if c = 'h' then .ok .help
  else
    match options.valued.find? (·.2 = c) with
    | none => .error (.unexpectedArgument argument)
    | some (name, _) =>
      match cs with
      | [] => .ok (.valued name none)
      -- the sign is no part of the value in `-o=PATH` either
      | '=' :: value => .ok (.valued name (some (String.ofList value)))
      | value => .ok (.valued name (some (String.ofList value)))

/-- Reads one argument. -/
def Argument.ofText (options : Options) (argument : String) : Except UsageError Argument :=
  match argument.toList with
  | ['-', '-'] => .ok .endOfOptions
  | '-' :: '-' :: cs => Argument.ofLong options argument cs
  | '-' :: c :: cs => Argument.ofShort options argument c cs
  | _ => .ok (.input argument)

/-- Reads the inputs after the end of the options. -/
def readInputs (d : Draft) (arguments : List String) : Except UsageError Draft :=
  arguments.foldlM Draft.setInput d

/-- Reads the arguments of a command; none if help is asked for. -/
def readArguments (options : Options) (d : Draft) :
    List String → Except UsageError (Option Draft)
  | [] => .ok (some d)
  | argument :: others =>
    match Argument.ofText options argument with
    | .error e => .error e
    | .ok .help => .ok none
    | .ok .endOfOptions => (readInputs d others).map some
    | .ok (.input value) => (d.setInput value).bind (readArguments options · others)
    | .ok (.flag option) => (d.setFlag option).bind (readArguments options · others)
    | .ok (.valued option (some value)) =>
      (d.setValue option value).bind (readArguments options · others)
    | .ok (.valued option none) =>
      match others with
      | [] => .error (.missingValue option)
      | value :: others =>
        if looksLikeOption value then .error (.missingValue option)
        else (d.setValue option value).bind (readArguments options · others)

/-! ## Section 3: Commands -/

/-- The options of `build`. -/
def buildOptions : Options := ⟨[("output", 'o')], ["stdout", "no-end"]⟩

/-- The options of `check`. -/
def checkOptions : Options := ⟨[], ["ast"]⟩

/-- The request for a build. -/
def Draft.toBuild (d : Draft) : Except UsageError Request :=
  match d.input, d.value? "output" with
  | none, _ => .error .missingInput
  | some input, output =>
    if output.isSome ∧ d.flags.contains "stdout" then .error (.conflict "--output" "--stdout")
    else
      .ok (.build ⟨⟨input⟩, output.map Path.mk, d.flags.contains "stdout",
        d.flags.contains "no-end"⟩)

/-- The request for a check. -/
def Draft.toCheck (d : Draft) : Except UsageError Request :=
  match d.input with
  | none => .error .missingInput
  | some input => .ok (.check ⟨⟨input⟩, d.flags.contains "ast"⟩)

/-- The request of a command with its arguments. -/
def readCommand (options : Options) (toRequest : Draft → Except UsageError Request)
    (arguments : List String) : Except UsageError Request := do
  match ← readArguments options Draft.empty arguments with
  | some d => toRequest d
  | none => return .help

/-- The request that a list of arguments makes. -/
def Request.ofArguments : List String → Except UsageError Request
  | [] => .error .missingCommand
  | "build" :: arguments => readCommand buildOptions Draft.toBuild arguments
  | "check" :: arguments => readCommand checkOptions Draft.toCheck arguments
  | "--version" :: _ => .ok .version
  | "--help" :: _ => .ok .help
  | "help" :: arguments =>
    if arguments ∈ [[], ["build"], ["check"], ["help"]] then .ok .help
    else .error (.unexpectedArgument (" ".intercalate arguments))
  | argument :: _ =>
    match argument.toList with
    | '-' :: 'V' :: _ => .ok .version
    | '-' :: 'h' :: _ => .ok .help
    | '-' :: _ :: _ => .error (.unexpectedArgument argument)
    | _ => .error (.unknownCommand argument)

end Mlog
