import SourceModel.CommandLine.Json
import SourceModel.CommandLine.Style
import SourceModel.SymbolTable
/-!
# The symbols command

Lists what a workspace declares, in a fixed order, as text or as JSON.
-/

namespace SourceModel.CommandLine

/-- Everything a workspace declares. -/
structure SymbolReport where
  types : List String
  structures : List Structure
  functions : List OverloadSet
  globals : List TypedName
  /-- Files whose pass stopped early. -/
  stopped : Nat

namespace SymbolReport

def ofTable (t : SymbolTable) : SymbolReport where
  types := t.typeNames
  structures := t.structures.values.mergeSort fun a b => a.name ≤ b.name
  functions := t.functionList
  globals := t.globals
  stopped := t.diagnostics.length

/-! ## Text -/

/-- Names under a heading. -/
def group (color : Bool) (title : String) (names : List String) : List String :=
  ("  " ++ (Style.heading .white).paint color title ++ ":") ::
    if names.isEmpty then ["    " ++ Style.faint.paint color "(none)"]
    else names.map fun name => "    " ++ Style.faint.paint color "•" ++ " " ++ name

def lines (color : Bool) (r : SymbolReport) : List String :=
  [(Style.heading .cyan).paint color "Epoch Workspace Symbols", ""] ++
  group color "Types" r.types ++
  group color "Structures" (r.structures.map (·.name)) ++
  group color "Functions" (r.functions.map (·.name)) ++
  group color "Globals" (r.globals.map (·.name)) ++
  if r.stopped = 0 then []
  else ["", (Style.plain .yellow).paint color "Note" ++
    s!": {r.stopped} files stopped early; run \x60epoch-sense check\x60 for details"]

/-! ## JSON -/

def typedNameJson (t : TypedName) : Json :=
  .object [("name", .text t.name), ("type_name", .text t.typeName)]

def structureJson (s : Structure) : Json :=
  .object [("name", .text s.name), ("members", .array (s.members.map typedNameJson))]

def overloadJson (o : Overload) : Json :=
  .object [("parameters", .array (o.parameters.map typedNameJson)),
    ("return_type", o.returnType.elim .null .text)]

def functionJson (f : OverloadSet) : Json :=
  .object [("name", .text f.name), ("overloads", .array (f.overloads.map overloadJson))]

def json (r : SymbolReport) : Json :=
  .object [("types", .array (r.types.map .text)), ("structures", .array (r.structures.map structureJson)),
    ("functions", .array (r.functions.map functionJson)), ("globals", .array (r.globals.map typedNameJson))]

end SymbolReport

end SourceModel.CommandLine
