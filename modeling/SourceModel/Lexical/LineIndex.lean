import SourceModel.Token
/-!
# Line indexes

A text is held in bytes and a place in it is a byte offset, while a position
counts lines and characters. An index holds the offsets at which the lines of a
text start. The line of a place is found in it by bisection, and its column is
the number of characters between the start of the line and the place.
-/

namespace SourceModel.Lexical

/-- The first place from `low` to `high` whose entry fails `p`, by bisection. The
entries have to pass up to some place and fail from there on. -/
def partitionPointIn (p : Nat → Bool) (xs : Array Nat) (low high : Nat) : Nat :=
  if low < high then
    let middle := (low + high) / 2
    if xs[middle]?.any p then partitionPointIn p xs (middle + 1) high else partitionPointIn p xs low middle
  else low
termination_by high - low

def partitionPoint (p : Nat → Bool) (xs : Array Nat) : Nat :=
  partitionPointIn p xs 0 xs.size

/-- Byte offsets just behind the line feeds of a text that starts at `offset`. -/
def behindLineFeeds (offset : Nat) : List Char → List Nat
  | [] => []
  | c :: rest =>
    let next := offset + c.utf8Size
    if c = '\n' then next :: behindLineFeeds next rest else behindLineFeeds next rest

structure LineIndex where
  source : String
  /-- Byte offsets at which the lines start. -/
  lineStarts : Array Nat

namespace LineIndex

def ofSource (source : String) : LineIndex :=
  ⟨source, (0 :: behindLineFeeds 0 source.toList).toArray⟩

/-- The position of a byte offset at which a character starts or the text ends. -/
def position (index : LineIndex) (offset : Nat) : Position :=
  -- The first line starts at 0, so there is a last line that starts no later.
  let line := partitionPoint (· ≤ offset) index.lineStarts - 1
  let start := index.lineStarts.getD line 0
  let column := (String.Pos.Raw.extract index.source ⟨start⟩ ⟨offset⟩).length
  ⟨UInt32.ofNat line, UInt32.ofNat column⟩

end LineIndex

end SourceModel.Lexical
