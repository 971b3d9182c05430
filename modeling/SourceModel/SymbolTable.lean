import SourceModel.Declaration
import SourceModel.Diagnostic
import SourceModel.Failure
import SourceModel.Registry
import SourceModel.Parsing.File
/-!
# Symbol tables

A symbol table holds everything one rebuild produces. What a repeated name does
depends on the registry:

* functions gather the overloads, in call order;
* structures, sum types and aliases keep the first registration;
* global variables are all kept;
* file records are replaced, their paths compared by components.
-/

namespace SourceModel

structure SymbolTable where
  files : Registry (List String) FileRecord
  globals : List TypedName
  functions : Registry String OverloadSet
  structures : Registry String Structure
  sumTypes : Registry String SumType
  strongAliases : Registry String Alias
  weakAliases : Registry String Alias
  diagnostics : List Diagnostic
  fileErrors : List FileError
  deriving BEq

namespace SymbolTable

def empty : SymbolTable :=
  ⟨.empty, [], .empty, .empty, .empty, .empty, .empty, [], []⟩

/-! ## Registration -/

/-- Adds the overloads of a function to those already known under its name. -/
def registerFunction (t : SymbolTable) (f : OverloadSet) : SymbolTable :=
  let known := (t.functions.find? f.name).elim [] (·.overloads)
  { t with functions := t.functions.put f.name ⟨f.name, known ++ f.overloads⟩ }

/-- The key may differ from the structure's own name. -/
def registerStructure (t : SymbolTable) (key : String) (s : Structure) : SymbolTable :=
  { t with structures := t.structures.putNew key s }

def registerSumType (t : SymbolTable) (key : String) (s : SumType) : SymbolTable :=
  { t with sumTypes := t.sumTypes.putNew key s }

def registerStrongAlias (t : SymbolTable) (key : String) (a : Alias) : SymbolTable :=
  { t with strongAliases := t.strongAliases.putNew key a }

def registerWeakAlias (t : SymbolTable) (key : String) (a : Alias) : SymbolTable :=
  { t with weakAliases := t.weakAliases.putNew key a }

def registerGlobal (t : SymbolTable) (v : TypedName) : SymbolTable :=
  { t with globals := t.globals ++ [v] }

def registerFile (t : SymbolTable) (path : Path) (record : FileRecord) : SymbolTable :=
  { t with files := t.files.put path.components record }

def addDiagnostic (t : SymbolTable) (d : Diagnostic) : SymbolTable :=
  { t with diagnostics := t.diagnostics ++ [d] }

def addFileError (t : SymbolTable) (e : FileError) : SymbolTable :=
  { t with fileErrors := t.fileErrors ++ [e] }

/-- Registers a declaration under a key. Functions and variables are known by
their own names, whatever the key. -/
def registerAs (t : SymbolTable) (key : String) : Declaration → SymbolTable
  | .function f => t.registerFunction f
  | .structureType s => t.registerStructure key s
  | .sumType s => t.registerSumType key s
  | .strongAlias a => t.registerStrongAlias key a
  | .weakAlias a => t.registerWeakAlias key a
  | .globalVariable v => t.registerGlobal v

/-- Whether a registration is reported as a change. Functions and variables
always are; the others are when their key is still free. -/
def acceptsAs (t : SymbolTable) (key : String) : Declaration → Bool
  | .function _ => true
  | .structureType _ => !t.structures.contains key
  | .sumType _ => !t.sumTypes.contains key
  | .strongAlias _ => !t.strongAliases.contains key
  | .weakAlias _ => !t.weakAliases.contains key
  | .globalVariable _ => true

/-- Registers a declaration under its own name. -/
def register (t : SymbolTable) (d : Declaration) : SymbolTable :=
  t.registerAs d.name d

/-- Whether a declaration is reported as a change under its own name. -/
def accepts (t : SymbolTable) (d : Declaration) : Bool :=
  t.acceptsAs d.name d

/-! ## Parsed files -/

/-- Registers what a pass over `file` recognised, in source order, and records
the diagnostic it ended with, if any. -/
def augment (t : SymbolTable) (file : Path) (parsed : Parsing.ParsedFile) : SymbolTable :=
  let t := parsed.declarations.foldl (fun t s => t.register (.sumType s)) t
  match parsed.failure with
  | none => t
  | some failure => t.addDiagnostic ⟨failure.flaw.fault.message, file, failure.position⟩

/-! ## Queries -/

/-- All functions, sorted by their own names. -/
def functionList (t : SymbolTable) : List OverloadSet :=
  t.functions.values.mergeSort fun f g => f.name ≤ g.name

/-- Names of sum types and aliases, ascending, each once. Structures are asked
for separately. -/
def typeNames (t : SymbolTable) : List String :=
  Registry.sortedKeys (t.sumTypes.keys ++ t.strongAliases.keys ++ t.weakAliases.keys)

/-- The variables visible at a place: only globals are known, so all of them. -/
def variablesAt (t : SymbolTable) (_file : Path) (_position : Position) : List TypedName :=
  t.globals

def isFunction (t : SymbolTable) (name : String) : Bool :=
  t.functions.contains name

def isStructure (t : SymbolTable) (name : String) : Bool :=
  t.structures.contains name

def isType (t : SymbolTable) (name : String) : Bool :=
  t.sumTypes.contains name || t.strongAliases.contains name || t.weakAliases.contains name

def fileRecord? (t : SymbolTable) (path : Path) : Option FileRecord :=
  t.files.find? path.components

/-- Names of a sum type's alternatives, in source order. -/
def alternativeNames? (t : SymbolTable) (name : String) : Option (List String) :=
  (t.sumTypes.find? name).map (·.alternatives.map (·.name))

end SymbolTable

end SourceModel
