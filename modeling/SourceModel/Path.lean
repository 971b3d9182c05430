/-!
# Paths

A path is kept as the text it was given, because reports print that text, and
compared by its components: repeated and trailing slashes and inner dots do not
matter, a leading dot does, and `..` is never folded away.
-/

namespace SourceModel

/-- A path as it was written. -/
structure Path where
  text : String

namespace Path

/-- The segments of a text between slashes, empty ones included. -/
def splitSlashes : List Char → List (List Char)
  | [] => [[]]
  | c :: cs =>
    if c = '/' then [] :: splitSlashes cs
    else match splitSlashes cs with
      | [] => [[c]]
      | segment :: segments => (c :: segment) :: segments

/-- The non-empty segments of a path, dots included. -/
def segments (p : Path) : List String :=
  ((splitSlashes p.text.toList).filter (· ≠ [])).map String.ofList

def isAbsolute (p : Path) : Bool :=
  p.text.toList.head? = some '/'

/-- Whether the text ends in a slash, which asks for a directory. -/
def hasTrailingSlash (p : Path) : Bool :=
  p.text.toList.getLast? = some '/'

/-- The components a path is compared by. A slash stands for the root and a dot
only for the front of a relative path, so no two components share a text. -/
def components (p : Path) : List String :=
  if p.isAbsolute then "/" :: p.segments.filter (· ≠ ".")
  else match p.segments with
    | [] => []
    | first :: rest => first :: rest.filter (· ≠ ".")

instance : BEq Path where
  beq p q := p.components = q.components

/-- Appends one name. -/
def join (p : Path) (name : String) : Path :=
  if p.text = "" then ⟨name⟩
  else if p.hasTrailingSlash then ⟨p.text ++ name⟩
  else ⟨p.text ++ "/" ++ name⟩

/-- The text of `p` below `base`, or all of it when `p` lies elsewhere. -/
def textBelow (base p : Path) : String :=
  if base.components.isPrefixOf p.components then
    "/".intercalate (p.components.drop base.components.length)
  else p.text

end Path

end SourceModel
