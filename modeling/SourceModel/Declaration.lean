import SourceModel.Path
/-!
# Declarations

The things a source file or a host can declare, and the record kept of every
parsed file. Types are referred to by the names written in the source; nothing
here resolves them.
-/

namespace SourceModel

/-- A name with the name of its type: a function's parameter, a structure's
member or a variable. -/
structure TypedName where
  name : String
  typeName : String
  deriving DecidableEq

/-- One shape of a function. There is no return type when it returns nothing. -/
structure Overload where
  parameters : List TypedName
  returnType : Option String
  deriving DecidableEq

/-- A function's name with all its overloads, in registration order. -/
structure OverloadSet where
  name : String
  overloads : List Overload
  deriving DecidableEq

structure Structure where
  name : String
  members : List TypedName
  deriving DecidableEq

/-- A pair of tokens in a template parameter list, such as `type T`. -/
structure TemplateParameter where
  typeName : String
  name : String
  deriving DecidableEq

/-- One alternative of a sum type, such as `Circle` or `list<integer>`. -/
structure Alternative where
  name : String
  arguments : List String
  deriving DecidableEq

/-- A type whose values are one of a fixed choice of alternatives. -/
structure SumType where
  name : String
  parameters : List TemplateParameter
  alternatives : List Alternative
  deriving DecidableEq

/-- A second name for a type, strong (a type of its own) or weak. -/
structure Alias where
  name : String
  underlying : String
  deriving DecidableEq

/-- Anything a symbol table can register. -/
inductive Declaration where
  | function (overloads : OverloadSet)
  | structureType (type : Structure)
  | sumType (type : SumType)
  | strongAlias (type : Alias)
  | weakAlias (type : Alias)
  | globalVariable (var : TypedName)
  deriving DecidableEq

/-- The declared name. -/
def Declaration.name : Declaration → String
  | .function f => f.name
  | .structureType s => s.name
  | .sumType s => s.name
  | .strongAlias a => a.name
  | .weakAlias a => a.name
  | .globalVariable v => v.name

/-- How the pass over a file ended. -/
inductive FileOutcome where
  | success
  /-- The pass stopped early and left one diagnostic. -/
  | failed
  deriving DecidableEq

/-- What is remembered of one parsed file. -/
structure FileRecord where
  path : Path
  outcome : FileOutcome
  /-- How many declarations were recognised before the pass ended. -/
  declarations : Nat
  deriving BEq

end SourceModel
