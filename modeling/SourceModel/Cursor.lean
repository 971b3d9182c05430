import SourceModel.Path
import SourceModel.TemplateList
import SourceModel.Word
/-!
# Cursors

A cursor walks the tokens of one file. It looks ahead by any 64-bit offset and
moves forward by any 64-bit count, and stays within the tokens whatever the
sums: an offset past the largest word finds no token, and a count past the end
stops there. Only the scan of a template list relies on its sums: where one of
them does not fit a word, the program stops.
-/

namespace SourceModel

/-- What comes of a scan over words. -/
inductive ScanOutcome where
  | ended (scan : TemplateScan)
  /-- A sum does not fit a word, and the program stops there without an answer. -/
  | overflow
  deriving DecidableEq

structure Cursor where
  file : Path
  tokens : Array Token
  /-- Index of the next token. -/
  next : UInt64

namespace Cursor

def ofTokens (file : Path) (tokens : List Token) : Cursor :=
  ⟨file, tokens.toArray, 0⟩

/-- The token `offset` places past the cursor. -/
def peek? (c : Cursor) (offset : UInt64) : Option Token :=
  (Word.add? c.next offset).bind fun i => c.tokens[i.toNat]?

/-- Moves forward, at most to the end. -/
def consume (c : Cursor) (count : UInt64) : Cursor :=
  { c with next := min (Word.addSaturating c.next count) (UInt64.ofNat c.tokens.size) }

def remaining (c : Cursor) : Nat :=
  c.tokens.size - c.next.toNat

def isEmpty (c : Cursor) : Bool :=
  c.tokens.size ≤ c.next.toNat

/-- The tokens not yet consumed. -/
def rest (c : Cursor) : List Token :=
  c.tokens.toList.drop c.next.toNat

/-- Whether the token at `offset` has this text; there is none past the end. -/
def check (c : Cursor) (offset : UInt64) (text : String) : Bool :=
  (c.peek? offset).any (·.is text)

/-- Where the token at `offset` stands, or the start of the file past the end. -/
def positionAt (c : Cursor) (offset : UInt64) : Position :=
  (c.peek? offset).elim ⟨0, 0⟩ (·.position)

/-- Scans a template list whose next element starts at `total`, without consuming
anything. A turn goes behind the element and looks at the token there. -/
def scanTemplate (c : Cursor) (width total : UInt64) : ScanOutcome :=
  match _hplace : Word.add? total width with
  | none => .overflow
  | some place =>
    if c.check place ">" then
      match Word.add? place 1 with
      | none => .overflow
      | some stop => .ended (.closed stop.toNat)
    else if c.check place "," then
      match _hnext : Word.add? place 1 with
      | none => .overflow
      | some next => c.scanTemplate width next
    else .ended (.broken place.toNat)
termination_by UInt64.size - total.toNat
decreasing_by
  -- Sums that fit are sums of numbers, so the next element starts at a larger word.
  have hplace := Word.toNat_of_add? _hplace
  have hnext := Word.toNat_of_add? _hnext
  have hlt := next.toNat_lt_size
  simp only [UInt64.toNat_one] at hnext
  omega

/-- A template parameter is a pair of tokens. -/
def scanParameters (c : Cursor) (start : UInt64) : ScanOutcome :=
  c.scanTemplate 2 start

/-- A template argument is a single token. -/
def scanArguments (c : Cursor) (start : UInt64) : ScanOutcome :=
  c.scanTemplate 1 start

end Cursor

end SourceModel
