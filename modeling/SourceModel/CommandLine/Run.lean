import SourceModel.CommandLine.Arguments
import SourceModel.CommandLine.Check
import SourceModel.CommandLine.Symbols
import SourceModel.Project.Log
/-!
# Running the program

From arguments and a file system to an exit code and the lines on both outputs.
Code 0 is success, 1 a failed command or a finding, 2 a misuse of the arguments.
-/

namespace SourceModel.CommandLine

/-- How the outputs are written. -/
structure Terminal where
  color : Bool := false
  /-- Whether the log goes to the error output. -/
  logs : Bool := false

/-- What a run of the program leaves behind. -/
structure Outcome where
  code : Nat
  output : List String := []
  errors : List String := []

namespace Outcome

/-- Adds lines that were written earlier. -/
def after (o : Outcome) (output errors : List String) : Outcome :=
  { o with output := output ++ o.output, errors := errors ++ o.errors }

end Outcome

def programName : String := "epoch-sense"

def programVersion : String := "0.1.0"

/-- The program's name and version; a command has a name of its own. -/
def versionLine (command : Option CommandName) : String :=
  programName ++ command.elim "" ("-" ++ ·.text) ++ " " ++ programVersion

def usageLine : String := "Usage: epoch-sense [OPTIONS] <COMMAND>"

def helpLines : List String :=
  [usageLine,
    "",
    "Commands:",
    "  check    Parse the workspace and report diagnostics",
    "  symbols  List the symbols the workspace declares",
    "  help     Print this message or the help of the given subcommand(s)",
    "",
    "Options:",
    "  -w, --workspace <WORKSPACE>  Workspace root directory (defaults to current directory)",
    "  -v, --verbose...             Verbose output (can be repeated: -v, -vv, -vvv)",
    "  -h, --help                   Print help",
    "  -V, --version                Print version"]

def errorLine (color : Bool) (text : String) : String :=
  (Style.heading .red).paint color "error" ++ ": " ++ text

/-- An error with its causes. -/
def errorLines (color : Bool) (e : Error) : List String :=
  errorLine color e.display ::
    e.causes.map fun cause => "  " ++ Style.faint.paint color "caused by" ++ ": " ++ cause

/-- The log lines that a terminal shows at a verbosity. -/
def Terminal.logLines (terminal : Terminal) (verbosity : Nat) (log : List LogLine) : List String :=
  if terminal.logs then (LogLine.shown verbosity log).map LogLine.display else []

/-- Runs a command on an opened workspace. -/
def runOpened (terminal : Terminal) (fs : FileSystem) (command : CommandName) (json : Bool)
    (workspace : Path) (project : Project) : Outcome :=
  match command with
  | .check =>
    let report := CheckReport.ofProject fs workspace project
    { code := report.exitCode, output := report.lines terminal.color }
  | .symbols =>
    let report := SymbolReport.ofTable (project.rebuild fs 0).1.snapshot.table
    { code := 0, output := if json then report.json.lines else report.lines terminal.color }

/-- Runs a command on the workspace at a path. -/
def runAt (terminal : Terminal) (fs : FileSystem) (command : CommandName) (json : Bool)
    (workspace : Path) (verbosity : Nat) : Outcome :=
  let opening := match command with
    | .check => [CheckReport.openingLine terminal.color workspace]
    | .symbols => []
  match Project.openScan fs workspace with
  | .error e => { code := 1, output := opening, errors := errorLines terminal.color e }
  | .ok (scan, project) =>
    let log := scan.log ++ project.rebuildLog fs
    (runOpened terminal fs command json workspace project).after opening (terminal.logLines verbosity log)

/-- Runs the program. Without a workspace the working directory is taken. -/
def run (terminal : Terminal) (fs : FileSystem) (args : List String) : Outcome :=
  match Request.ofArguments args with
  | .misuse => { code := 2, errors := [usageLine] }
  | .help => { code := 0, output := helpLines }
  | .version command => { code := 0, output := [versionLine command] }
  | .run command json workspace verbosity =>
    match workspace.elim fs.currentDir .ok with
    | .ok workspace => runAt terminal fs command json workspace verbosity
    | .error failure =>
      { code := 1
        errors := [errorLine terminal.color s!"failed to get current directory: {failure.message}"] }

end SourceModel.CommandLine
