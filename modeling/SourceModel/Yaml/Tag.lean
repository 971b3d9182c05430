import SourceModel.Hex
import SourceModel.Yaml.Spot
/-!
# YAML names, tags and directives

The small words of a YAML text: anchors and aliases, tags, and the directives in
front of a document. Of a tag only its handle is kept, because a handle has to
be declared; what the tag says about a value is not used. Nothing is answered
for a text that is malformed.
-/

namespace SourceModel.Yaml

/-- The part of a line from a spot to where `rest` begins. -/
def Spot.upTo (s : Spot) (rest : List Char) : Spot :=
  s.advance (s.rest.length - rest.length)

/-! ## Anchors and aliases -/

/-- What may follow the name of an anchor or an alias directly. -/
def nameStops : List Char := ['?', ':', ',', ']', '\x7d', '%', '@', '\x60']

/-- The name of an anchor or an alias, from just past its mark. -/
def anchorName (s : Spot) : Option (List Char × Spot) :=
  let name := s.rest.takeWhile isWordChar
  let s := s.advance name.length
  if name.isEmpty then none
  else if s.endsWordAt 0 || s.head?.any nameStops.contains then some (name, s)
  else none

/-! ## Tags -/

/-- One byte written as a percent sign and two hexadecimal digits. -/
def escapedByte : List Char → Option (Nat × List Char)
  | '%' :: a :: b :: rest => (Hex.number? [a, b]).map (·, rest)
  | _ => none

/-- How many bytes follow the first byte of a character. -/
def followingBytes? (first : Nat) : Option Nat :=
  if first < 0x80 then some 0
  else if first / 0x20 = 0x6 then some 1
  else if first / 0x10 = 0xe then some 2
  else if first / 0x8 = 0x1e then some 3
  else none

def skipFollowingBytes : Nat → List Char → Option (List Char)
  | 0, cs => some cs
  | n + 1, cs => do
    let (byte, rest) ← escapedByte cs
    if byte / 0x40 = 0x2 then skipFollowingBytes n rest else none

/-- What stands after one escaped character. -/
def skipEscapedChar (cs : List Char) : Option (List Char) := do
  let (byte, rest) ← escapedByte cs
  skipFollowingBytes (← followingBytes? byte) rest

def uriMarks : List Char :=
  [';', '/', '?', ':', '@', '&', '=', '+', '$', '.', '!', '~', '*', Char.ofNat 39, '(', ')']

/-- What stands after the longest run of resource characters. Written in full,
a tag may hold commas and square brackets. -/
def skipUri (full : Bool) : Nat → List Char → Option (List Char)
  | 0, cs => some cs
  | _, [] => some []
  | fuel + 1, c :: cs =>
    if c = '%' then (skipEscapedChar (c :: cs)).bind (skipUri full fuel)
    else if isWordChar c || uriMarks.contains c || (full && [',', '[', ']'].contains c) then
      skipUri full fuel cs
    else some (c :: cs)

/-- Moves over resource characters, of which there must be some if asked. -/
def readUri (full required : Bool) (s : Spot) : Option Spot := do
  let rest ← skipUri full s.rest.length s.rest
  if required && rest.length = s.rest.length then none else some (s.upTo rest)

/-- A handle such as `!` or `!name!`, from its first mark. -/
def tagHandle (s : Spot) : List Char × Spot :=
  let name := (s.rest.drop 1).takeWhile isWordChar
  let s := s.advance (name.length + 1)
  if s.sees '!' then ('!' :: name ++ ['!'], s.advance 1) else ('!' :: name, s)

/-- A tag, with its handle if it names one. -/
def tag (flow : Bool) (s : Spot) : Option (Option (List Char) × Spot) := do
  let (handle, s) ←
    if (s.rest.drop 1).head? = some '<' then
      let s ← readUri true true (s.advance 2)
      if s.sees '>' then some (none, s.advance 1) else none
    else
      let (handle, s) := tagHandle s
      if 1 < handle.length && handle.getLast? = some '!' then
        some (some handle, ← readUri false true s)
      else some (none, ← readUri false false s)
  if s.endsWordAt 0 || (flow && s.sees ',') then some (handle, s) else none

/-! ## Directives -/

inductive Directive where
  | version (major minor : Nat)
  /-- Declares a tag handle. -/
  | handle (name : List Char)

/-- A number of at most nine digits. -/
def versionNumber (s : Spot) : Option (Nat × Spot) :=
  let digits := s.rest.takeWhile Char.isDigit
  if digits.isEmpty || 9 < digits.length then none
  else some (digits.foldl (fun n c => n * 10 + (c.toNat - '0'.toNat)) 0, s.advance digits.length)

def versionDirective (s : Spot) : Option (Directive × Spot) := do
  let (major, s) ← versionNumber (s.advanceWhile isSpace)
  if s.sees '.' then
    let (minor, s) ← versionNumber (s.advance 1)
    some (.version major minor, s)
  else none

def handleDirective (s : Spot) : Option (Directive × Spot) := do
  let s := s.advanceWhile isSpace
  if s.sees '!' then
    let (handle, s) := tagHandle s
    if (handle.length = 1 || handle.getLast? = some '!') && s.seesSpace then
      let s ← readUri true true (s.advanceWhile isSpace)
      if s.endsWordAt 0 then some (.handle handle, s) else none
    else none
  else none

/-- A directive, from its percent sign to the end of its line. -/
def directive (s : Spot) : Option (Directive × Spot) := do
  let s := s.advance 1
  let name := s.rest.takeWhile isWordChar
  let s := s.advance name.length
  if s.endsWordAt 0 then
    let (directive, s) ←
      if name = "YAML".toList then versionDirective s
      else if name = "TAG".toList then handleDirective s
      else none
    let s := s.skipToLineEnd
    if s.atLineEnd then some (directive, s.readBreak.2) else none
  else none

end SourceModel.Yaml
