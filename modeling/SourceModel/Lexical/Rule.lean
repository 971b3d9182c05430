/-!
# Lexical rules

Each rule is a set of character lists. A rule's `longest` gives the length of
the longest prefix of a text that belongs to the rule, and zero when there is
none. Two rules never tie: among the rules that accept a prefix of a text, one
accepts the longest.
-/

namespace SourceModel.Lexical

/-! ## Characters -/

def isBlank (c : Char) : Bool :=
  c = ' ' || c = '\t' || c = '\r' || c = '\n' || c = '\x0c'

def isDigit (c : Char) : Bool :=
  '0' ≤ c && c ≤ '9'

def isHexDigit (c : Char) : Bool :=
  isDigit c || ('a' ≤ c && c ≤ 'f') || ('A' ≤ c && c ≤ 'F')

def isIdentifierStart (c : Char) : Bool :=
  ('a' ≤ c && c ≤ 'z') || ('A' ≤ c && c ≤ 'Z') || c = '_'

def isIdentifierPart (c : Char) : Bool :=
  isIdentifierStart c || isDigit c

/-- Operators of two characters. Angle brackets are never joined, so that
template lists close one token at a time. -/
def doublePunctuation : List (Char × Char) :=
  [('-', '>'), ('=', '='), ('!', '='), ('<', '='), ('>', '='), ('&', '&'), ('|', '|'),
    ('+', '='), ('-', '='), ('*', '='), ('/', '='), ('+', '+'), ('-', '-')]

def singlePunctuation : List Char :=
  ['(', ')', '\x7b', '\x7d', '[', ']', '<', '>', ',', '.', ':', ';', '=', '|', '&', '!', '+', '-',
    '*', '/', '%', '^', '~', '?', '@']

/-! ## Languages -/

/-- Text between quotes: no bare quote or backslash, and a backslash takes the
character after it along unless that is a line break. -/
inductive QuotedBody : List Char → Prop
  | nil : QuotedBody []
  | plain {c : Char} {s : List Char} : c ≠ '"' → c ≠ '\\' → QuotedBody s → QuotedBody (c :: s)
  | escape {c : Char} {s : List Char} : c ≠ '\n' → QuotedBody s → QuotedBody ('\\' :: c :: s)

inductive Rule where
  | blanks
  | lineComment
  | identifier
  | number
  | stringLiteral
  | punctuation
  /-- The two characters that open a block comment. -/
  | commentOpening
  deriving DecidableEq

namespace Rule

/-- The character lists that belong to a rule. -/
def Accepts : Rule → List Char → Prop
  | .blanks, s => s ≠ [] ∧ ∀ c ∈ s, isBlank c
  | .lineComment, s => ∃ body, s = '/' :: '/' :: body ∧ '\n' ∉ body
  | .identifier, s => ∃ c body, s = c :: body ∧ isIdentifierStart c ∧ ∀ d ∈ body, isIdentifierPart d
  | .number, s =>
    (∃ digits, s = '0' :: 'x' :: digits ∧ digits ≠ [] ∧ ∀ d ∈ digits, isHexDigit d) ∨
    (s ≠ [] ∧ ∀ d ∈ s, isDigit d) ∨
    ∃ whole fraction, s = whole ++ '.' :: fraction ∧ whole ≠ [] ∧ fraction ≠ [] ∧
      (∀ d ∈ whole, isDigit d) ∧ ∀ d ∈ fraction, isDigit d
  | .stringLiteral, s => ∃ body, s = '"' :: (body ++ ['"']) ∧ QuotedBody body
  | .punctuation, s =>
    (∃ c, s = [c] ∧ c ∈ singlePunctuation) ∨ ∃ c d, s = [c, d] ∧ (c, d) ∈ doublePunctuation
  | .commentOpening, s => s = ['/', '*']

/-! ## Longest prefixes -/

/-- Length of the longest quoted body at the front of a text. -/
def quotedLength : List Char → Nat
  | [] => 0
  | '"' :: _ => 0
  | ['\\'] => 0
  | '\\' :: c :: rest => if c = '\n' then 0 else quotedLength rest + 2
  | _ :: rest => quotedLength rest + 1

def hexLength : List Char → Nat
  | '0' :: 'x' :: rest =>
    let digits := (rest.takeWhile isHexDigit).length
    if digits = 0 then 0 else digits + 2
  | _ => 0

def decimalLength (s : List Char) : Nat :=
  let whole := (s.takeWhile isDigit).length
  if whole = 0 then 0
  else match s.dropWhile isDigit with
    | '.' :: rest =>
      let fraction := (rest.takeWhile isDigit).length
      if fraction = 0 then whole else whole + 1 + fraction
    | _ => whole

/-- Length of the longest prefix that belongs to the rule, zero if none does. -/
def longest : Rule → List Char → Nat
  | .blanks, s => (s.takeWhile isBlank).length
  | .lineComment, '/' :: '/' :: rest => (rest.takeWhile (· ≠ '\n')).length + 2
  | .lineComment, _ => 0
  | .identifier, c :: rest =>
    if isIdentifierStart c then (rest.takeWhile isIdentifierPart).length + 1 else 0
  | .identifier, [] => 0
  | .number, s => max (hexLength s) (decimalLength s)
  | .stringLiteral, '"' :: rest =>
    let body := quotedLength rest
    if (rest.drop body).head? = some '"' then body + 2 else 0
  | .stringLiteral, _ => 0
  | .punctuation, c :: d :: _ =>
    if (c, d) ∈ doublePunctuation then 2 else if c ∈ singlePunctuation then 1 else 0
  | .punctuation, [c] => if c ∈ singlePunctuation then 1 else 0
  | .punctuation, [] => 0
  | .commentOpening, '/' :: '*' :: _ => 2
  | .commentOpening, _ => 0

def all : List Rule :=
  [.blanks, .lineComment, .identifier, .number, .stringLiteral, .punctuation, .commentOpening]

/-- The rule with the longest prefix of a text, with that prefix's length. -/
def best (s : List Char) : Option (Rule × Nat) :=
  all.foldl
    (fun found rule =>
      let n := rule.longest s
      match found with
      | none => if n = 0 then none else some (rule, n)
      | some (_, m) => if m < n then some (rule, n) else found)
    none

end Rule

end SourceModel.Lexical
