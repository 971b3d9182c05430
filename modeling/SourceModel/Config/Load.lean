import SourceModel.Config.Basic
import SourceModel.FileSystem.Basic
import SourceModel.Yaml.Node
/-!
# Loading a configuration

A configuration file is a YAML mapping that sets any of the two fields; a text
without content sets none. Unknown and repeated fields are refused. Every scalar
is a text, whatever it looks like, and an empty value is an empty list where a
list is asked for.
-/

namespace SourceModel

namespace Config

/-- The configuration file of a workspace. -/
def fileName : String := ".epoch-sense.yaml"

/-- The text a node of `document` stands for. -/
def textOf? (document node : Yaml.Node) : Option String :=
  match document.target node with
  | some (.scalar _ text _) => some text
  | _ => none

/-- The texts a node of `document` stands for. -/
def textsOf? (document node : Yaml.Node) : Option (List String) :=
  match document.target node with
  | some (.sequence _ items) => items.mapM (textOf? document)
  | some (.scalar _ "" true) => some []
  | _ => none

/-- Fields that a file sets. -/
structure Settings where
  sourceExtension : Option String := none
  excludedDirs : Option (List String) := none

/-- Reads one field, which must be a known one that is not yet set. -/
def Settings.add? (document : Yaml.Node) (s : Settings) (field : Yaml.Node × Yaml.Node) :
    Option Settings := do
  match ← textOf? document field.1 with
  | "source-extension" =>
    if s.sourceExtension.isSome then none
    else some { s with sourceExtension := some (← textOf? document field.2) }
  | "excluded-dirs" =>
    if s.excludedDirs.isSome then none
    else some { s with excludedDirs := some (← textsOf? document field.2) }
  | _ => none

/-- The defaults with the fields that are set. -/
def ofSettings (s : Settings) : Config :=
  let defaults : Config := {}
  ⟨s.sourceExtension.getD defaults.sourceExtension, s.excludedDirs.getD defaults.excludedDirs⟩

/-- The configuration that a document describes. -/
def ofDocument? : Option Yaml.Node → Option Config
  | none => some {}
  | some document =>
    match document with
    | .scalar _ "" true => some {}
    | .mapping _ fields => (fields.foldlM (Settings.add? document) {}).map ofSettings
    | _ => none

/-- Reads a configuration from a YAML text and validates it. -/
def ofText (text : String) : Except ConfigError Config :=
  match (Yaml.document? text).bind ofDocument? with
  | some config => config.validate
  | none => .error .malformed

/-- Loads a configuration file. -/
def load (fs : FileSystem) (path : Path) : Except Error Config := do
  let text ← (fs.readText path).mapError .io
  (ofText text).mapError .config

/-- The configuration of a workspace: its file, or the defaults without one. -/
def discover (fs : FileSystem) (root : Path) : Except Error Config :=
  let path := root.join fileName
  if fs.isFile path then load fs path else .ok {}

end Config

end SourceModel
