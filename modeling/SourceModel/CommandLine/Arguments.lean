import SourceModel.Path
/-!
# Command line arguments

```text
epoch-sense {option} (check | symbols) {option} [--]
option := -w DIR | --workspace DIR | -v | --verbose | -h | --help | -V | --version | --json
```

Arguments are read from left to right and the first that asks for the version or
for help, or that fits nowhere, ends the reading. Options may stand before and
after the command; what is given after it counts. The workspace can be given
once on either side. `--json` belongs to `symbols`.
-/

namespace SourceModel.CommandLine

inductive CommandName where
  | check
  | symbols
  deriving DecidableEq

def CommandName.ofText? : String → Option CommandName
  | "check" => some .check
  | "symbols" => some .symbols
  | _ => none

def CommandName.text : CommandName → String
  | .check => "check"
  | .symbols => "symbols"

/-- What the arguments ask for. -/
inductive Request where
  | run (command : CommandName) (json : Bool) (workspace : Option Path) (verbosity : Nat)
  | version (command : Option CommandName)
  | help
  | misuse
  deriving BEq

/-- Options given on one side of the command. -/
structure Options where
  workspace : Option String := none
  /-- How often more output was asked for. -/
  verbosity : Nat := 0
  json : Bool := false

/-- Reading stops early at a request that is already settled. -/
abbrev Reader := Except Request

namespace Options

/-- The directory must have a name and be the only one. -/
def setWorkspace (o : Options) (dir : String) : Reader Options :=
  if dir = "" || o.workspace.isSome then throw .misuse else return { o with workspace := some dir }

/-- Only `symbols` can be asked for JSON, and once. -/
def setJson (o : Options) (command : Option CommandName) : Reader Options :=
  if command ≠ some .symbols || o.json then throw .misuse else return { o with json := true }

/-- Reads letters after one dash. The answer says whether a directory is still
to come as the next argument. -/
def addLetters (command : Option CommandName) : Options → List Char → Reader (Options × Bool)
  | o, [] => return (o, false)
  | o, 'v' :: rest => addLetters command { o with verbosity := o.verbosity + 1 } rest
  | o, ['w'] => return (o, true)
  | o, 'w' :: '=' :: dir => return (← o.setWorkspace (String.ofList dir), false)
  | o, 'w' :: dir => return (← o.setWorkspace (String.ofList dir), false)
  | _, 'V' :: _ => throw (.version command)
  | _, 'h' :: _ => throw .help
  | _, _ => throw .misuse

/-- Reads a word after two dashes, with what stands after an equals sign. -/
def addWord (command : Option CommandName) (o : Options) (name : String) (value : Option String) :
    Reader (Options × Bool) :=
  match name, value with
  | "workspace", none => return (o, true)
  | "workspace", some dir => return (← o.setWorkspace dir, false)
  | "verbose", none => return ({ o with verbosity := o.verbosity + 1 }, false)
  | "json", none => return (← o.setJson command, false)
  | "version", none => throw (.version command)
  | "help", none => throw .help
  | _, _ => throw .misuse

end Options

/-- An argument by its first characters. -/
inductive Argument where
  | letters (letters : List Char)
  | word (name : String) (value : Option String)
  /-- Two dashes: no options follow. -/
  | escape
  | plain (text : String)

/-- A single dash is a plain argument. -/
def Argument.ofText (text : String) : Argument :=
  match text.toList with
  | ['-', '-'] => .escape
  | '-' :: '-' :: rest =>
    let name := rest.takeWhile (· ≠ '=')
    .word (String.ofList name)
      ((rest.drop name.length).tail?.map String.ofList)
  | '-' :: c :: rest => .letters (c :: rest)
  | _ => .plain text

/-- Reads options up to the first argument that is none, and answers with the
arguments from there on. -/
def readOptions (command : Option CommandName) : Options → List String → Reader (Options × List String)
  | o, [] => return (o, [])
  | o, arg :: rest => do
    let (o, needsDir) ← match Argument.ofText arg with
      | .letters letters => o.addLetters command letters
      | .word name value => o.addWord command name value
      | _ => return (o, arg :: rest)
    if needsDir then
      match rest with
      | [] => throw .misuse
      | dir :: rest =>
        match Argument.ofText dir with
        | .plain dir => readOptions command (← o.setWorkspace dir) rest
        | _ => throw .misuse
    else readOptions command o rest

/-- Help can be asked for by name, on one command at most. -/
def helpRequest : List String → Request
  | [] => .help
  | [name] => if name = "help" || (CommandName.ofText? name).isSome then .help else .misuse
  | _ => .misuse

/-- Reads what follows a command. -/
def readCommand (before : Options) (command : CommandName) (args : List String) : Reader Request := do
  let (o, rest) ← readOptions (some command) {} args
  if rest = [] || rest = ["--"] then
    let dir := o.workspace.or before.workspace
    return .run command o.json (dir.map (⟨·⟩)) (if o.verbosity = 0 then before.verbosity else o.verbosity)
  else return .misuse

def readRequest (args : List String) : Reader Request := do
  let (o, rest) ← readOptions none {} args
  match rest with
  | [] => return .misuse
  | word :: rest =>
    if word = "help" then return helpRequest rest
    else match CommandName.ofText? word with
      | some command => readCommand o command rest
      | none => return .misuse

/-- What the arguments ask for. -/
def Request.ofArguments (args : List String) : Request :=
  match readRequest args with
  | .ok request => request
  | .error request => request

end SourceModel.CommandLine
