import SourceModel.FileSystem.Basic
import SourceModel.Lexical.Tokenize
import SourceModel.SymbolTable
/-!
# Surveys

A survey reads source files one by one, each on its own. The symbol table and
the statistics of a rebuild are both made from it, file by file in its order.
-/

namespace SourceModel

namespace Parsing

/-- Parses the text of a file. -/
def parseText (text : String) : ParsedFile :=
  parseTokens (Lexical.tokenize text)

end Parsing

/-- One source file and what reading it gave. -/
structure Reading where
  path : Path
  result : Except FileError Parsing.ParsedFile

namespace Reading

/-- Reads and parses a file. -/
def ofFile (fs : FileSystem) (path : Path) : Reading :=
  ⟨path, ((fs.readText path).mapError (FileError.ofIo path)).map Parsing.parseText⟩

def parsed? (r : Reading) : Option Parsing.ParsedFile :=
  match r.result with
  | .ok parsed => some parsed
  | .error _ => none

def error? (r : Reading) : Option FileError :=
  match r.result with
  | .ok _ => none
  | .error e => some e

/-- Adds one file to a table: what it declares, its diagnostic and its record,
or the reason why it could not be read. -/
def addTo (t : SymbolTable) (r : Reading) : SymbolTable :=
  match r.result with
  | .ok parsed => (t.augment r.path parsed).registerFile r.path (parsed.record r.path)
  | .error e => t.addFileError e

end Reading

/-- Figures of one rebuild. -/
structure Statistics where
  /-- Files that could be read. -/
  filesParsed : Nat
  /-- Files among them whose pass stopped early. -/
  filesFailed : Nat
  declarations : Nat
  diagnostics : Nat
  /-- Files that could not be read. -/
  errors : List FileError

/-- The readings of some files, in the order in which they are merged. -/
abbrev Survey := List Reading

namespace Survey

def ofFiles (fs : FileSystem) (paths : List Path) : Survey :=
  paths.map (Reading.ofFile fs)

def table (s : Survey) : SymbolTable :=
  s.foldl Reading.addTo .empty

def parsedFiles (s : Survey) : List Parsing.ParsedFile :=
  s.filterMap Reading.parsed?

def statistics (s : Survey) : Statistics where
  filesParsed := s.parsedFiles.length
  filesFailed := s.parsedFiles.countP (·.outcome = .failed)
  declarations := (s.parsedFiles.flatMap (·.declarations)).length
  diagnostics := s.table.diagnostics.length
  errors := s.filterMap Reading.error?

end Survey

end SourceModel
