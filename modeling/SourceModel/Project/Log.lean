import SourceModel.Log
import SourceModel.Project.Basic
/-!
# The log of a rebuild

What opening and rebuilding a project leave in the log. Every line follows from
the scan, the walk or the survey, so the log is made from those and the work
itself knows nothing of it.
-/

namespace SourceModel

/-- A text in quotes. Declared names hold letters, digits and underscores only. -/
def quoted (name : String) : String := "\"" ++ name ++ "\""

def Scan.log (s : Scan) : List LogLine :=
  s.listing.skipped.map (fun (directory, failure) =>
    ⟨.warn, "Cannot read directory, skipping",
      [("directory", directory.text), ("error", failure.message)], none⟩) ++
  [⟨.debug, "Workspace scanned",
    [("root", s.root.text), ("items", toString s.tree.size), ("nested", toString s.nestedProjects)], none⟩]

/-- Only the items that are replaced by a nested hierarchy leave a line. -/
def Visit.log (visits : List Visit) : List LogLine :=
  visits.filterMap fun
    | .path _ => none
    | .descend item =>
      some ⟨.trace, "Descending into nested hierarchy", [("item", toString item.number)], none⟩

namespace Parsing

/-- The lines about a template list that does not close. -/
def Flaw.log (flaw : Flaw) : List LogLine :=
  let unclosed := fun base => [⟨.debug, "Template list does not close",
    [("base", base), ("at", toString flaw.offset)], none⟩]
  match flaw.fault with
  | .brokenParameters base => unclosed base
  | .brokenArguments base => unclosed base
  | _ => []

/-- The lines of the declarations of a file, given the table they go into. -/
def declarationLog (file : Path) : SymbolTable → List SumType → List LogLine
  | _, [] => []
  | t, type :: rest =>
    let name := ("name", quoted type.name)
    let repeated : List LogLine :=
      if t.accepts (.sumType type) then []
      else [⟨.trace, "Duplicate declaration ignored, first registration wins", [name], none⟩]
    ⟨.debug, "Registering declaration", [("file", file.text), name], none⟩ :: repeated ++
      declarationLog file (t.register (.sumType type)) rest

def Failure.log (file : Path) (f : Failure) : List LogLine :=
  f.flaw.log ++
    [⟨.debug, "Parse pass stopped",
      [("file", file.text), ("line", toString f.position.line), ("column", toString f.position.column)],
      some f.flaw.fault.message⟩]

def outcomeWord : FileOutcome → String
  | .success => "Success"
  | .failed => "Failed"

end Parsing

/-- The lines of one file, given the table it goes into. -/
def Reading.log (t : SymbolTable) (r : Reading) : List LogLine :=
  match r.result with
  | .error e =>
    [⟨.warn, "Cannot read source file, skipping", [("file", r.path.text), ("error", e.message)], none⟩]
  | .ok parsed =>
    Parsing.declarationLog r.path t parsed.declarations ++
      parsed.failure.elim [] (·.log r.path) ++
      [⟨.debug, "Parsed source file",
        [("file", r.path.text), ("outcome", Parsing.outcomeWord parsed.outcome),
          ("declarations", toString parsed.declarations.length)], none⟩]

namespace Survey

/-- The lines of all files, given the table they go into. -/
def fileLog : SymbolTable → Survey → List LogLine
  | _, [] => []
  | t, r :: rest => r.log t ++ fileLog (r.addTo t) rest

/-- The measured time is left out. -/
def log (s : Survey) : List LogLine :=
  let figures := s.statistics
  fileLog .empty s ++
    [⟨.info, "Reparse completed",
      [("files", toString figures.filesParsed), ("failed", toString figures.filesFailed),
        ("declarations", toString figures.declarations), ("unreadable", toString figures.errors.length),
        ("duration_ms", "<n>")], none⟩]

end Survey

/-- The log of a rebuild. -/
def Project.rebuildLog (p : Project) (fs : FileSystem) : List LogLine :=
  Visit.log p.visits ++ (p.survey fs).log

end SourceModel
