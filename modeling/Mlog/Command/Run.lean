import Mlog.Command.Arguments
import Mlog.Project

/-! # Running the command line

    `run` answers a list of arguments on any file system: it gives the exit
    code, what goes to standard output, and what is told on the error
    output.  Only `build` writes, and only once its input is compiled. -/

namespace Mlog

/-! ## Section 1: Outcomes -/

/-- What is told on the error output. -/
inductive Notice
  | error (message : String)
  | compiled (output : Path)
  | accepted (input : Path)
deriving DecidableEq, Repr

/-- The words of a notice. -/
def Notice.text : Notice → String
  | error message => "error: " ++ message
  | compiled output => "Compiled -> " ++ output.text
  | accepted input => "OK: " ++ input.text

/-- What a run of the command line comes to, its effect on files aside. -/
structure Outcome where
  exitCode : Nat
  stdout : String
  notices : List Notice
  /-- What is wrong with the source text. -/
  diagnostics : List Diagnostic

namespace Outcome

/-- A run that ends well and prints something. -/
def printed (text : String) : Outcome := ⟨0, text, [], []⟩

/-- A run that ends well with a notice. -/
def done (stdout : String) (notice : Notice) : Outcome := ⟨0, stdout, [notice], []⟩

/-- A run that fails with a message. -/
def failed (message : String) : Outcome := ⟨1, "", [.error message], []⟩

/-- A run that fails because the source text cannot be compiled. -/
def rejected (stdout : String) (diagnostics : List Diagnostic) : Outcome :=
  ⟨1, stdout, [], diagnostics⟩

/-- A run that was not asked for properly. -/
def misused (e : UsageError) : Outcome := ⟨2, "", [.error e.message], []⟩

end Outcome

variable {m : Type → Type} [Monad m] [FileSystem m]

/-! ## Section 2: Inputs -/

/-- A source file, and the project whose entry it is. -/
structure Input where
  entry : Path
  project : Option Project

/-- The project that a manifest describes. -/
def loadProject (manifest : Path) : ExceptT Outcome m Project := do
  match ← Project.load (m := m) manifest with
  | .ok project => return project
  | .error d => throw (.failed d.message)

/-- The entry of the project in a directory. -/
def resolveDirectory (directory : Path) : ExceptT Outcome m Input := do
  let manifest := directory.join ⟨manifestName⟩
  if ← FileSystem.isThere (m := m) manifest then
    let project ← loadProject manifest
    return ⟨project.entry, some project⟩
  else
    throw (.failed ("no " ++ manifestName ++ " found in '" ++ directory.text ++ "'"))

/-- The manifest that is nearest to a source file. -/
def manifestFor (source : Path) : m (Option Path) :=
  match source.parent? with
  | some directory => Project.find directory
  | none => return none

/-- A source file, which belongs to the project around it only if it is the
    entry of that. -/
def resolveFile (source : Path) : ExceptT Outcome m Input := do
  match ← manifestFor (m := m) source with
  | none => return ⟨source, none⟩
  | some manifest =>
    let project ← loadProject manifest
    if ← FileSystem.isSame (m := m) project.entry source then return ⟨source, some project⟩
    else return ⟨source, none⟩

/-- The source file that an input stands for: a directory stands for the entry
    of its project, and a source file for itself. -/
def resolveInput (input : Path) : ExceptT Outcome m Input := do
  if ← FileSystem.isDirectory (m := m) input then resolveDirectory input
  else if input.extension? = some ['m', 'n', 'd'] then resolveFile input
  else throw (.failed "input must be a .mnd file or project directory")

/-- The source text of an input. -/
def readSource (input : Input) : ExceptT Outcome m String := do
  match ← readFile (m := m) input.entry with
  | .ok source => return source
  | .error d => throw (.failed d.message)

/-! ## Section 3: Commands -/

/-- Makes a directory, and those above it, if they are missing. -/
def prepareDirectory (directory : Path) : ExceptT Outcome m Unit := do
  match ← FileSystem.makeDirectories (m := m) directory with
  | .ok () => return ()
  | .error e => throw (.failed ("cannot create '" ++ directory.text ++ "': " ++ e.message))

/-- Writes a listing; the directories above it are made if they are
    missing. -/
def writeListing (output : Path) (text : String) : ExceptT Outcome m Outcome := do
  output.parent?.forM prepareDirectory
  match ← FileSystem.writeText (m := m) output text with
  | .ok () => return .done "" (.compiled output)
  | .error e => throw (.failed ("cannot write '" ++ output.text ++ "': " ++ e.message))

/-- Where the listing of an input goes unless the arguments say it: to the
    output of its project, or beside the source file. -/
def defaultOutput (arguments : BuildArguments) (input : Input) : Path :=
  match input.project with
  | some project => project.output
  | none => arguments.input.withExtension "mlog"

/-- Compiles an input and prints or writes the listing. -/
def runBuild (arguments : BuildArguments) : ExceptT Outcome m Outcome := do
  let input ← resolveInput arguments.input
  let source ← readSource input
  match compile (!arguments.noEnd) source with
  | .error diagnostics => throw (.rejected "" diagnostics)
  | .ok text =>
    if arguments.stdout then return .printed text
    else writeListing (arguments.output.getD (defaultOutput arguments input)) text

/-- Compiles an input and writes nothing; its tree is printed if asked for. -/
def runCheck (arguments : CheckArguments) : ExceptT Outcome m Outcome := do
  let input ← resolveInput arguments.input
  let source ← readSource input
  match parseSource source with
  | .error diagnostics => throw (.rejected "" diagnostics)
  | .ok tree =>
    let shown := if arguments.showTree then tree.text ++ "\n" else ""
    match check source with
    | .error diagnostics => throw (.rejected shown diagnostics)
    | .ok () => return .done shown (.accepted arguments.input)

/-! ## Section 4: The command line -/

/-- The text that tells the version. -/
def versionText : String := "mindcode 0.1.0\n"

/-- The text that tells how to use the command line. -/
def helpText : String :=
  "Mindcode compiler: high-level scripts to Mindustry Logic\n\n" ++
  "Usage: mindcode <COMMAND>\n\n" ++
  "Commands:\n" ++
  "  build  Compile a .mnd file (or project) to Mindustry Logic\n" ++
  "  check  Parse and generate without writing output\n" ++
  "  help   Print this message or the help of the given subcommand(s)\n\n" ++
  "Options:\n" ++
  "  -h, --help     Print help\n" ++
  "  -V, --version  Print version\n"

/-- Answers a request. -/
def Request.run : Request → m Outcome
  | .build arguments => finish (runBuild arguments)
  | .check arguments => finish (runCheck arguments)
  | .version => return .printed versionText
  | .help => return .printed helpText
where
  finish (job : ExceptT Outcome m Outcome) : m Outcome := do
    match ← job.run with
    | .ok outcome => return outcome
    | .error outcome => return outcome

/-- Answers a list of arguments. -/
def run (arguments : List String) : m Outcome :=
  match Request.ofArguments arguments with
  | .ok request => request.run
  | .error e => return .misused e

end Mlog
