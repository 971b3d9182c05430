import SourceModel.Config.Load
import SourceModel.Project.Survey
import SourceModel.Workspace.Scan
/-!
# Projects

A project keeps the symbol table of a workspace. Its tree and configuration are
fixed when it is opened; the table is rebuilt from the files on request, at most
once in a while through the gate. Between rebuilds a host may register
declarations of its own, which the next rebuild discards.

Time is a number of nanoseconds that the caller supplies.
-/

namespace SourceModel

/-- A symbol table as it was handed out. Every rebuild and every registration
makes a new revision, even when the table stays the same. -/
structure Snapshot where
  table : SymbolTable
  revision : Nat

structure Project where
  config : Config
  /-- The walk of the project's tree. -/
  visits : List Visit
  /-- When the last rebuild started. -/
  lastRebuild : Option Nat := none
  snapshot : Snapshot := ⟨.empty, 0⟩

namespace Project

/-- The least time between two rebuilds through the gate, fifteen seconds. -/
def stalenessThreshold : Nat := 15_000_000_000

/-! ## Opening -/

def ofScan (scan : Scan) (config : Config) : Project :=
  { config, visits := scan.visits }

/-- Opens a directory: reads its configuration, then scans it. The scan is
returned beside the project. -/
def openScan (fs : FileSystem) (root : Path) : Except Error (Scan × Project) := do
  let config ← Config.discover fs root
  let scan ← (Scan.run fs config root).mapError .workspace
  return (scan, ofScan scan config)

/-- Opens a directory. -/
def openDir (fs : FileSystem) (root : Path) : Except Error Project :=
  (openScan fs root).map (·.2)

/-- A project over a host's tree, if its walk takes at most `fuel` items. -/
def ofHierarchy? (fuel : Nat) (h : Hierarchy) (config : Config) : Option Project :=
  (h.walk? fuel).map fun visits => { config, visits }

/-! ## Rebuilding -/

/-- The source files of the project, in walk order. -/
def sources (p : Project) : List Path :=
  Visit.paths p.visits p.config.isSource

def survey (p : Project) (fs : FileSystem) : Survey :=
  Survey.ofFiles fs p.sources

/-- Replaces the table. -/
def install (p : Project) (table : SymbolTable) : Project :=
  { p with snapshot := ⟨table, p.snapshot.revision + 1⟩ }

/-- Rebuilds the table from the files as they are now. -/
def rebuild (p : Project) (fs : FileSystem) (now : Nat) : Project × Statistics :=
  let survey := p.survey fs
  ({ p with lastRebuild := some now }.install survey.table, survey.statistics)

/-- Whether the gate is open. -/
def isOutdated (p : Project) (now : Nat) : Bool :=
  p.lastRebuild.all fun last => last + stalenessThreshold ≤ now

/-- Rebuilds the table unless the last rebuild is too recent. -/
def rebuildIfOutdated (p : Project) (fs : FileSystem) (now : Nat) : Project × Option Statistics :=
  match p.lastRebuild with
  | some last =>
    if now < last + stalenessThreshold then (p, none)
    else let (p, statistics) := p.rebuild fs now; (p, some statistics)
  | none => let (p, statistics) := p.rebuild fs now; (p, some statistics)

/-! ## Registrations -/

/-- Registers a declaration of the host's in the current table. -/
def register (p : Project) (key : String) (d : Declaration) : Project :=
  p.install (p.snapshot.table.registerAs key d)

end Project

end SourceModel
