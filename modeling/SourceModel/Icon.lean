import SourceModel.Config.Basic
/-!
# Icons

Which icon a host shows for a node of its tree, if not its own default.
-/

namespace SourceModel

/-- What a node stands for. -/
inductive NodeRole where
  | projectRoot
  | fileOnDisk
  /-- Folders, virtual items and anything else. -/
  | other
  deriving DecidableEq

inductive Icon where
  | project
  | document
  deriving DecidableEq

/-- Roots get the project icon and source files on disk the document icon. -/
def Icon.for? (config : Config) (role : NodeRole) (path : Option Path) : Option Icon :=
  match role with
  | .projectRoot => some .project
  | .fileOnDisk => if path.any config.isSource then some .document else none
  | .other => none

end SourceModel
