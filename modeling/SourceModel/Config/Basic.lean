import SourceModel.Path
import SourceModel.Failure
/-!
# Configuration

What counts as a source file, and which directories are left alone. Extensions
are matched without regard to ASCII case, directory names exactly.
-/

namespace SourceModel

structure Config where
  /-- Without the dot. -/
  sourceExtension : String := "epoch"
  /-- Names of directories that are never entered. -/
  excludedDirs : List String := ["target", "bin", "obj", "build", "dist", "node_modules"]
  deriving DecidableEq

namespace Config

/-- Folds the ASCII letters of a text to lower case. -/
def fold (text : String) : List Char :=
  text.toList.map Char.toLower

/-- Whether a path ends in a dot and the source extension. Only the text of the
path counts, not what lies there. -/
def isSource (config : Config) (path : Path) : Bool :=
  ('.' :: fold config.sourceExtension).isSuffixOf (fold path.text)

def isExcluded (config : Config) (name : String) : Bool :=
  config.excludedDirs.contains name

/-- Whether the source extension can be written after a dot. -/
def hasBareExtension (config : Config) : Bool :=
  match config.sourceExtension.toList with
  | [] => false
  | c :: rest => c ≠ '.' && !(c :: rest).contains '/' && !(c :: rest).contains '\\'

/-- Accepts a configuration whose extension is bare. -/
def validate (config : Config) : Except ConfigError Config :=
  if config.hasBareExtension then .ok config
  else .error (.notBareExtension config.sourceExtension)

end Config

end SourceModel
