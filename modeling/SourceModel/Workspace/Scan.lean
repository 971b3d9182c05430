import SourceModel.Config.Basic
import SourceModel.FileSystem.Basic
import SourceModel.Workspace.Outline
/-!
# Scanning a workspace

A directory becomes an outline: its entries in ascending order of names, without
hidden ones and excluded directories. A directory that holds a project marker is
a project of its own. Links are taken for what they lead to, and paths below the
root are written as they were reached, so a loop of links ends only when no more
links are followed.
-/

namespace SourceModel

/-- The file that marks a directory as a project of its own. -/
def projectMarker : String := "project.epochproj"

/-- What was found in a directory, and which directories could not be read. -/
structure Listing where
  outlines : List Outline := []
  skipped : List (Path × IoFailure) := []

namespace Listing

def append (a b : Listing) : Listing :=
  ⟨a.outlines ++ b.outlines, a.skipped ++ b.skipped⟩

/-- The listing of a directory's entries, given the listing of each name. -/
def gather (names : List String) (entry : String → Listing) : Listing :=
  names.foldr (fun name rest => (entry name).append rest) {}

end Listing

def isHidden (name : String) : Bool :=
  name.toList.head? = some '.'

namespace FileSystem

/-- Scans a directory down to `depth` directories. -/
def listing (fs : FileSystem) (config : Config) : Nat → Path → Listing
  | 0, _ => {}
  | depth + 1, dir =>
    match fs.names dir with
    | .error failure => { skipped := [(dir, failure)] }
    | .ok names =>
      Listing.gather (names.mergeSort (· ≤ ·)) fun name =>
        let path := dir.join name
        if isHidden name then {}
        else if fs.isDirectory path then
          if config.isExcluded name then {}
          else
            let below := fs.listing config depth path
            if fs.isFile (path.join projectMarker) then
              { below with outlines := [.project path below.outlines] }
            else { below with outlines := [.item path below.outlines] }
        else if fs.isFile path then { outlines := [.item path []] }
        else {}

/-- No path that resolves names more directories than this: between two links
it descends at most the height of the file system. -/
def maxDepth (fs : FileSystem) : Nat :=
  (fs.root.height + 1) * (maxLinks + 1)

end FileSystem

/-- A scanned workspace. -/
structure Scan where
  /-- Free of links and dots. -/
  root : Path
  listing : Listing

namespace Scan

def tree (s : Scan) : NodeTree :=
  Outline.treeOf s.root s.listing.outlines

def nestedProjects (s : Scan) : Nat :=
  Outline.projectsInAll s.listing.outlines

/-- The walk of the scanned tree. -/
def visits (s : Scan) : List Visit :=
  (s.tree.view.walk? (Outline.visitsInAll s.listing.outlines + 1)).getD []

/-- Scans the directory at `root`. -/
def run (fs : FileSystem) (config : Config) (root : Path) : Except WorkspaceError Scan := do
  let canonical ← (fs.canonical root).mapError (.rootMissing root)
  if fs.isDirectory canonical then
    .ok ⟨canonical, fs.listing config fs.maxDepth canonical⟩
  else .error (.rootNotDirectory canonical)

end Scan

end SourceModel
