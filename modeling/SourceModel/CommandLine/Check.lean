import SourceModel.CommandLine.Style
import SourceModel.Project.Basic
/-!
# The check command

Parses a workspace and reports what is wrong in it: diagnostics, and files that
could not be read. The command succeeds when there is neither.
-/

namespace SourceModel.CommandLine

/-- What a check found. -/
structure CheckReport where
  /-- Paths are shown relative to this one. -/
  root : Path
  statistics : Statistics
  diagnostics : List Diagnostic

namespace CheckReport

/-- Rebuilds a project that was opened at `workspace`. -/
def ofProject (fs : FileSystem) (workspace : Path) (project : Project) : CheckReport :=
  let (project, statistics) := project.rebuild fs 0
  { root := (fs.canonical workspace).toOption.getD workspace
    statistics
    diagnostics := project.snapshot.table.diagnostics }

def isClean (r : CheckReport) : Bool :=
  r.diagnostics.isEmpty && r.statistics.errors.isEmpty

def exitCode (r : CheckReport) : Nat :=
  if r.isClean then 0 else 1

/-! ## Lines -/

/-- Items listed in full; of the others only the number is given. -/
def maxListed : Nat := 20

/-- A list under a heading, or nothing when it is empty. -/
def listing {α : Type} (color : Bool) (title : String) (items : List α) (line : α → String) : List String :=
  if items.isEmpty then []
  else
    ["", (Style.heading .red).paint color title ++ s!" ({items.length}):"] ++
      (items.take maxListed).map line ++
      (if maxListed < items.length then [s!"  ... and {items.length - maxListed} more"] else [])

/-- A diagnostic with coordinates from one. -/
def diagnosticLine (color : Bool) (root : Path) (d : Diagnostic) : String :=
  let document := (Style.heading .white).paint color (root.textBelow d.document)
  s!"  {document}:{d.position.line.toNat + 1}:{d.position.column.toNat + 1}: {d.message}"

def fileErrorLine (color : Bool) (root : Path) (e : FileError) : String :=
  let bullet := (Style.plain .red).paint color "•"
  s!"  {bullet} {root.textBelow e.path}: {e.message} ({e.kind.display})"

/-- The first line, before anything is known. -/
def openingLine (color : Bool) (workspace : Path) : String :=
  (Style.heading .cyan).paint color "Checking" ++ s!" {workspace.text}..."

/-- The measured time is left out. -/
def lines (color : Bool) (r : CheckReport) : List String :=
  [(Style.heading .green).paint color "Parsed" ++
      s!" {r.statistics.filesParsed} files, {r.statistics.declarations} declarations",
    Style.faint.paint color "Duration" ++ ": <duration>"] ++
  listing color "Diagnostics" r.diagnostics (diagnosticLine color r.root) ++
  listing color "Unreadable files" r.statistics.errors (fileErrorLine color r.root)

end CheckReport

end SourceModel.CommandLine
