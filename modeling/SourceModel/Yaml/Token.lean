import SourceModel.Yaml.Scalar
import SourceModel.Yaml.Tag
/-!
# YAML tokens

A YAML text as a list of tokens. Indentation becomes tokens too: a block opens
where the text moves to the right and closes where it moves back. That a word
was a key is only known when its colon comes, so the reader remembers where the
word stands and inserts the mark in front of it afterwards; such a word must end
on its own line, within 1024 characters.
-/

namespace SourceModel.Yaml

inductive Token where
  | directive (directive : Directive)
  | documentStart
  | documentEnd
  | blockSequenceStart
  | blockMappingStart
  | blockEnd
  | flowSequenceStart
  | flowSequenceEnd
  | flowMappingStart
  | flowMappingEnd
  | blockEntry
  | flowEntry
  | key
  | value
  | alias (name : List Char)
  | anchor (name : List Char)
  | tag (handle : Option (List Char))
  | scalar (text : List Char) (plain : Bool)

/-- A place where a key may turn out to stand. -/
structure PendingKey where
  /-- Whether nothing but a key can stand there. -/
  required : Bool
  /-- How many tokens come before it. -/
  token : Nat
  index : Nat
  line : Nat
  column : Nat

/-- Characters between a key's first and its colon. -/
def maxKeyLength : Nat := 1024

structure Reader where
  spot : Spot
  tokens : List Token := []
  /-- Column of the innermost block, negative outside of any. -/
  indent : Int := -1
  outerIndents : List Int := []
  /-- Whether a key may start at the next token. -/
  keyAllowed : Bool := true
  pending : Option PendingKey := none
  /-- The pending keys around each open flow collection, innermost first. -/
  outerPending : List (Option PendingKey) := []

namespace Reader

/-- Inside a flow collection indentation does not matter. -/
def inFlow (r : Reader) : Bool := !r.outerPending.isEmpty

def push (r : Reader) (token : Token) : Reader :=
  { r with tokens := r.tokens ++ [token] }

def advance (r : Reader) (n : Nat) : Reader :=
  { r with spot := r.spot.advance n }

/-! ## Blocks -/

/-- Opens a block at a column to the right of the current one. Its token goes
in front of the token at `position`. -/
def openBlock (r : Reader) (column position : Nat) (token : Token) : Reader :=
  if !r.inFlow && r.indent < column then
    { r with
      indent := column
      outerIndents := r.indent :: r.outerIndents
      tokens := r.tokens.insertIdx position token }
  else r

/-- The end marks of the blocks to the right of a column, and what remains. -/
def closedBlocks (column : Int) : Int → List Int → List Token × Int × List Int
  | indent, [] => ([], indent, [])
  | indent, outer :: rest =>
    if column < indent then
      let (ends, indent, rest) := closedBlocks column outer rest
      (.blockEnd :: ends, indent, rest)
    else ([], indent, outer :: rest)

def closeBlocks (r : Reader) (column : Int) : Reader :=
  if r.inFlow then r
  else
    let (ends, indent, outerIndents) := closedBlocks column r.indent r.outerIndents
    { r with tokens := r.tokens ++ ends, indent, outerIndents }

/-! ## Pending keys -/

/-- Gives up the pending key; one that is required cannot be given up. -/
def dropKey (r : Reader) : Option Reader :=
  if r.pending.any (·.required) then none else some { r with pending := none }

/-- Remembers that a key may start here. -/
def saveKey (r : Reader) : Option Reader :=
  if r.keyAllowed then do
    let r ← r.dropKey
    let key : PendingKey :=
      { required := !r.inFlow && r.indent = r.spot.column
        token := r.tokens.length
        index := r.spot.index
        line := r.spot.line
        column := r.spot.column }
    some { r with pending := some key }
  else some r

/-- Whether a key can no longer end here. -/
def isStale (s : Spot) (k : PendingKey) : Bool :=
  k.line < s.line || k.index + maxKeyLength < s.index

/-- Gives up all keys that can no longer end here. -/
def dropStaleKeys (r : Reader) : Option Reader :=
  let stale := fun (k : Option PendingKey) => k.filter (isStale r.spot)
  let fresh := fun (k : Option PendingKey) => k.filter (!isStale r.spot ·)
  if (r.pending :: r.outerPending).any fun k => (stale k).any (·.required) then none
  else some { r with pending := fresh r.pending, outerPending := r.outerPending.map fresh }

/-! ## Tokens one by one -/

/-- Skips blanks, comments and line breaks. A tab is a blank only where no key
can start. -/
def skipBlanks : Nat → Reader → Reader
  | 0, r => r
  | fuel + 1, r =>
    let s := if r.spot.index = 0 && r.spot.sees byteOrderMark then r.spot.advance 1 else r.spot
    let s := s.advanceWhile fun c => c = ' ' || (c = '\t' && (r.inFlow || !r.keyAllowed))
    let s := if s.sees '#' then s.advanceWhile (!isBreak ·) else s
    if s.seesBreak then
      skipBlanks fuel { r with spot := s.readBreak.2, keyAllowed := r.keyAllowed || !r.inFlow }
    else { r with spot := s }

/-- Leaves all blocks, before what stands outside of them. -/
def leaveBlocks (r : Reader) : Option Reader := do
  let r ← (r.closeBlocks (-1)).dropKey
  some { r with keyAllowed := false }

def documentMark (r : Reader) (token : Token) : Option Reader := do
  some (((← r.leaveBlocks).push token).advance 3)

def readDirective (r : Reader) : Option Reader := do
  let r ← r.leaveBlocks
  let (directive, spot) ← directive r.spot
  some { r.push (.directive directive) with spot }

def flowStart (r : Reader) (token : Token) : Option Reader := do
  let r ← r.saveKey
  let r := { r with pending := none, outerPending := r.pending :: r.outerPending, keyAllowed := true }
  some ((r.push token).advance 1)

def flowEnd (r : Reader) (token : Token) : Option Reader := do
  let r ← r.dropKey
  let r := match r.outerPending with
    | [] => r
    | pending :: outerPending => { r with pending, outerPending }
  some (({ r with keyAllowed := false }.push token).advance 1)

def flowEntry (r : Reader) : Option Reader := do
  some (({ ← r.dropKey with keyAllowed := true }.push .flowEntry).advance 1)

/-- Opens a block for an entry or a key that is marked as such, which inside a
block must stand where a key may start. -/
def markedStart (r : Reader) (token : Token) : Option Reader :=
  if r.inFlow then some r
  else if r.keyAllowed then some (r.openBlock r.spot.column r.tokens.length token)
  else none

def blockEntry (r : Reader) : Option Reader := do
  let r ← (← r.markedStart .blockSequenceStart).dropKey
  some (({ r with keyAllowed := true }.push .blockEntry).advance 1)

def explicitKey (r : Reader) : Option Reader := do
  let r ← (← r.markedStart .blockMappingStart).dropKey
  some (({ r with keyAllowed := !r.inFlow }.push .key).advance 1)

/-- A colon turns the pending word into a key. -/
def readValue (r : Reader) : Option Reader := do
  let r ← match r.pending with
    | some k =>
      let r := { r with tokens := r.tokens.insertIdx k.token .key }
      some { r.openBlock k.column k.token .blockMappingStart with pending := none, keyAllowed := false }
    | none => do
      let r ← r.markedStart .blockMappingStart
      some { r with keyAllowed := !r.inFlow }
  some ((r.push .value).advance 1)

/-- An anchor or an alias. -/
def named (r : Reader) (token : List Char → Token) : Option Reader := do
  let r ← r.saveKey
  let (name, spot) ← anchorName (r.spot.advance 1)
  some { r.push (token name) with spot, keyAllowed := false }

def readTag (r : Reader) : Option Reader := do
  let r ← r.saveKey
  let (handle, spot) ← tag r.inFlow r.spot
  some { r.push (.tag handle) with spot, keyAllowed := false }

def readBlockScalar (r : Reader) (literal : Bool) : Option Reader := do
  let r ← r.dropKey
  let (text, spot) ← blockScalar literal r.indent (r.spot.advance 1)
  some { r.push (.scalar text false) with spot, keyAllowed := true }

def readQuoted (r : Reader) (quote : Quote) : Option Reader := do
  let r ← r.saveKey
  let (text, spot) ← quotedScalar quote (r.spot.rest.length + 1) [] (r.spot.advance 1)
  some { r.push (.scalar text false) with spot, keyAllowed := false }

def readPlain (r : Reader) : Option Reader := do
  let r ← r.saveKey
  let (text, onNewLine, spot) ←
    plainScalar r.inFlow (r.indent + 1) (r.spot.rest.length + 1) [] {} r.spot
  some { r.push (.scalar text true) with spot, keyAllowed := onNewLine }

/-- Characters that do not start a plain scalar. -/
def indicators : List Char :=
  ['-', '?', ':', ',', '[', ']', '\x7b', '\x7d', '#', '&', '*', '!', '|', '>', apostrophe, '"', '%', '@', '\x60']

def startsPlain (r : Reader) (c : Char) : Bool :=
  !(isSpace c || isBreak c || indicators.contains c) ||
    (c = '-' && !(r.spot.rest.drop 1).head?.any isSpace) ||
    (!r.inFlow && (c = '?' || c = ':') && !r.spot.endsWordAt 1)

/-- Reads one token that starts with `c`, the next character. -/
def readToken (r : Reader) (c : Char) : Option Reader :=
  let flow := r.inFlow
  let ends := r.spot.endsWordAt 1
  if r.spot.column = 0 && c = '%' then r.readDirective
  else if r.spot.seesDocumentMark then
    r.documentMark (if c = '-' then .documentStart else .documentEnd)
  else if c = '[' then r.flowStart .flowSequenceStart
  else if c = '\x7b' then r.flowStart .flowMappingStart
  else if c = ']' then r.flowEnd .flowSequenceEnd
  else if c = '\x7d' then r.flowEnd .flowMappingEnd
  else if c = ',' then r.flowEntry
  else if c = '-' && ends then r.blockEntry
  else if c = '?' && (flow || ends) then r.explicitKey
  else if c = ':' && (flow || ends) then r.readValue
  else if c = '*' then r.named .alias
  else if c = '&' then r.named .anchor
  else if c = '!' then r.readTag
  else if c = '|' && !flow then r.readBlockScalar true
  else if c = '>' && !flow then r.readBlockScalar false
  else if c = apostrophe then r.readQuoted .single
  else if c = '"' then r.readQuoted .double
  else if r.startsPlain c then r.readPlain
  else none

/-- Reads all tokens; every one takes at least a character. -/
def readAll : Nat → Reader → Option (List Token)
  | 0, _ => none
  | fuel + 1, r => do
    let r ← (skipBlanks (r.spot.rest.length + 1) r).dropStaleKeys
    let r := r.closeBlocks r.spot.column
    match r.spot.head? with
    | none => (·.tokens) <$> r.leaveBlocks
    | some c => readAll fuel (← r.readToken c)

end Reader

/-- The tokens of a text, unless it is malformed. -/
def tokens? (text : String) : Option (List Token) :=
  let chars := text.toList
  if chars.all isPrintable then Reader.readAll (chars.length + 1) { spot := { rest := chars } } else none

end SourceModel.Yaml
