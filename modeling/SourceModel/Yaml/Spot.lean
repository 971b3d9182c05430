/-!
# Spots in a YAML text

A spot is a place in a text: what is left of it, and how far one has come.
Line breaks come in several spellings; all but the two Unicode separators read
as a line feed.
-/

namespace SourceModel.Yaml

/-! ## Characters -/

def isBreak (c : Char) : Bool :=
  c = '\n' || c = '\r' || c = '\u0085' || c = '\u2028' || c = '\u2029'

def isSpace (c : Char) : Bool :=
  c = ' ' || c = '\t'

/-- Characters of anchors, tag handles and directive names. -/
def isWordChar (c : Char) : Bool :=
  c.isAlphanum || c = '_' || c = '-'

/-- Characters that may stand in a YAML text at all. -/
def isPrintable (c : Char) : Bool :=
  c = '\t' || c = '\n' || c = '\r' || (' ' ≤ c && c ≤ '~') || c = '\u0085' ||
    ('\u00a0' ≤ c && c ≤ '\ufffd') || '\ufffd'.toNat + 2 < c.toNat

def byteOrderMark : Char := '\ufeff'

/-! ## Spots -/

structure Spot where
  rest : List Char
  /-- Characters passed. -/
  index : Nat := 0
  line : Nat := 0
  column : Nat := 0

namespace Spot

def head? (s : Spot) : Option Char := s.rest.head?

def atEnd (s : Spot) : Bool := s.rest.isEmpty

/-- Whether the next character is `c`. -/
def sees (s : Spot) (c : Char) : Bool := s.head? = some c

def seesSpace (s : Spot) : Bool := s.head?.any isSpace

def seesBreak (s : Spot) : Bool := s.head?.any isBreak

/-- At a line break or at the end. -/
def atLineEnd (s : Spot) : Bool := s.head?.all isBreak

/-- Whether a word ends `n` characters further on: at blanks, a line break or
the end. -/
def endsWordAt (s : Spot) (n : Nat) : Bool :=
  (s.rest.drop n).head?.all fun c => isSpace c || isBreak c

/-- Moves over `n` characters of the same line. -/
def advance (s : Spot) (n : Nat) : Spot :=
  { s with rest := s.rest.drop n, index := s.index + n, column := s.column + n }

/-- Moves over the characters at the front that pass a test, none of them a
line break. -/
def advanceWhile (s : Spot) (p : Char → Bool) : Spot :=
  s.advance (s.rest.takeWhile p).length

/-- Moves over a line break and reads it. -/
def readBreak (s : Spot) : List Char × Spot :=
  let past := fun (n : Nat) => { rest := s.rest.drop n, index := s.index + n, line := s.line + 1 : Spot }
  match s.rest with
  | '\r' :: '\n' :: _ => (['\n'], past 2)
  | c :: _ =>
    if c = '\u2028' || c = '\u2029' then ([c], past 1)
    else if isBreak c then (['\n'], past 1)
    else ([], s)
  | [] => ([], s)

/-- Whether a line of three dashes or three dots starts here. -/
def seesDocumentMark (s : Spot) : Bool :=
  s.column = 0 && (s.rest.take 3 = ['-', '-', '-'] || s.rest.take 3 = ['.', '.', '.']) && s.endsWordAt 3

/-- Skips blanks, then a comment. -/
def skipToLineEnd (s : Spot) : Spot :=
  let s := s.advanceWhile isSpace
  if s.sees '#' then s.advanceWhile (!isBreak ·) else s

end Spot

end SourceModel.Yaml
