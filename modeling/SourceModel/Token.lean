/-!
# Tokens

A token is a classified piece of source text with the position of its first
character. Positions are zero-based lines and zero-based columns counted in
characters, the coordinates an editor places its caret by.
-/

namespace SourceModel

/-- A place in a document. -/
structure Position where
  line : UInt32
  column : UInt32
  deriving DecidableEq

inductive TokenKind where
  | identifier
  | number
  | stringLiteral
  | punctuation
  /-- Text that no lexical rule accepts. -/
  | unknown
  deriving DecidableEq

structure Token where
  kind : TokenKind
  text : String
  position : Position
  deriving DecidableEq

namespace Token

/-- Keywords are identifiers too: the parser tells them apart by their text. -/
def isIdentifier (t : Token) : Bool :=
  t.kind = .identifier

/-- Punctuation and keywords are compared by text alone, whatever the kind. -/
def is (t : Token) (text : String) : Bool :=
  t.text = text

end Token

end SourceModel
