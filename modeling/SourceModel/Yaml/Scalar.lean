import SourceModel.Hex
import SourceModel.Yaml.Spot
/-!
# YAML scalars

The three ways to write a text: plain, quoted, and as a block. All of them fold
lines: a single line break becomes a space, and of several the first is
dropped. A block keeps its breaks when it is literal. Nothing is answered for a
text that is malformed.
-/

namespace SourceModel.Yaml

/-! ## Gaps -/

/-- Blanks and line breaks between two runs of text. -/
structure Gap where
  /-- Blanks before the first line break. -/
  blanks : List Char := []
  breaks : List Char := []

namespace Gap

/-- What a gap reads as. -/
def text (gap : Gap) : List Char :=
  match gap.breaks with
  | [] => gap.blanks
  | '\n' :: [] => [' ']
  | '\n' :: more => more
  | breaks => breaks

/-- Reads a gap. After a line break, tabs are refused to the left of `indent`. -/
def read (indent : Int) : Nat → Gap → Spot → Option (Gap × Spot)
  | 0, gap, s => some (gap, s)
  | fuel + 1, gap, s =>
    if s.seesSpace then
      if gap.breaks.isEmpty then
        read indent fuel { gap with blanks := gap.blanks ++ s.head?.toList } (s.advance 1)
      else if s.sees '\t' && (s.column : Int) < indent then none
      else read indent fuel gap (s.advance 1)
    else if s.seesBreak then
      let (br, s) := s.readBreak
      read indent fuel { gap with breaks := gap.breaks ++ br } s
    else some (gap, s)

end Gap

/-! ## Plain scalars -/

def flowIndicators : List Char := [',', '[', ']', '\x7b', '\x7d']

/-- A run of a plain scalar: up to a blank, a line break or an indicator. In a
flow collection a colon must not stand right before an indicator. -/
def plainRun (flow : Bool) : List Char → Option (List Char)
  | [] => some []
  | c :: rest =>
    if isSpace c || isBreak c then some []
    else if flow && c = ':' && rest.head?.any ('?' :: flowIndicators).contains then none
    else if c = ':' && rest.head?.all (fun d => isSpace d || isBreak d) then some []
    else if flow && flowIndicators.contains c then some []
    else (plainRun flow rest).map (c :: ·)

/-- A plain scalar, with whether it ended on a new line. `text` is what has been
read and `gap` what stands before the next run. -/
def plainScalar (flow : Bool) (indent : Int) : Nat → List Char → Gap → Spot →
    Option (List Char × Bool × Spot)
  | 0, _, _, _ => none
  | fuel + 1, text, gap, s =>
    let stop := some (text, !gap.breaks.isEmpty, s)
    if s.seesDocumentMark || s.sees '#' then stop
    else
      match plainRun flow s.rest with
      | none => none
      | some [] => stop
      | some run => do
        let text := text ++ gap.text ++ run
        let s := s.advance run.length
        let (gap, s') ← Gap.read indent s.rest.length {} s
        if gap.blanks.isEmpty && gap.breaks.isEmpty then some (text, false, s)
        else if !flow && (s'.column : Int) < indent then some (text, !gap.breaks.isEmpty, s')
        else plainScalar flow indent fuel text gap s'

/-! ## Quoted scalars -/

/-- A character written by its code in `n` hexadecimal digits. -/
def codedChar (n : Nat) (cs : List Char) : Option Char :=
  if cs.length < n then none
  else (Hex.number? (cs.take n)).bind fun code => if code.isValidChar then some (Char.ofNat code) else none

/-- What stands after a backslash: the character meant and the characters used. -/
def escape : List Char → Option (Char × Nat)
  | [] => none
  | c :: rest =>
    match c with
    | '0' => some ('\x00', 1)
    | 'a' => some ('\x07', 1)
    | 'b' => some ('\x08', 1)
    | 't' => some ('\t', 1)
    | '\t' => some ('\t', 1)
    | 'n' => some ('\n', 1)
    | 'v' => some ('\x0b', 1)
    | 'f' => some ('\x0c', 1)
    | 'r' => some ('\r', 1)
    | 'e' => some ('\x1b', 1)
    | ' ' => some (' ', 1)
    | '"' => some ('"', 1)
    | '/' => some ('/', 1)
    | '\\' => some ('\\', 1)
    | 'N' => some ('\u0085', 1)
    | '_' => some ('\u00a0', 1)
    | 'L' => some ('\u2028', 1)
    | 'P' => some ('\u2029', 1)
    | 'x' => (codedChar 2 rest).map (·, 3)
    | 'u' => (codedChar 4 rest).map (·, 5)
    | 'U' => (codedChar 8 rest).map (·, 9)
    | _ => none

def apostrophe : Char := Char.ofNat 39

/-- The two kinds of quotes. -/
inductive Quote where
  | single
  | double
  deriving DecidableEq

def Quote.char : Quote → Char
  | .single => apostrophe
  | .double => '"'

/-- How a run inside quotes ends. -/
inductive RunEnd where
  | gap
  | quote
  /-- A backslash before a line break, which is skipped. -/
  | escapedBreak
  deriving DecidableEq

/-- A run inside quotes, up to a blank, a line break or the closing quote. -/
def quotedRun (quote : Quote) : Nat → List Char → Spot → Option (List Char × RunEnd × Spot)
  | 0, _, _ => none
  | fuel + 1, text, s =>
    match s.rest with
    | [] => some (text, .gap, s)
    | c :: rest =>
      if isSpace c || isBreak c then some (text, .gap, s)
      else if quote = .single && c = apostrophe && rest.head? = some apostrophe then
        quotedRun quote fuel (text ++ [apostrophe]) (s.advance 2)
      else if c = quote.char then some (text, .quote, s)
      else if quote = .double && c = '\\' then
        if rest.head?.any isBreak then some (text, .escapedBreak, (s.advance 1).readBreak.2)
        else match escape rest with
          | some (d, n) => quotedRun quote fuel (text ++ [d]) (s.advance (n + 1))
          | none => none
      else quotedRun quote fuel (text ++ [c]) (s.advance 1)

/-- A quoted scalar, from just past the opening quote. -/
def quotedScalar (quote : Quote) : Nat → List Char → Spot → Option (List Char × Spot)
  | 0, _, _ => none
  | fuel + 1, text, s =>
    if s.seesDocumentMark || s.atEnd then none
    else do
      let (run, stop, s) ← quotedRun quote (s.rest.length + 1) [] s
      let text := text ++ run
      match stop with
      | .quote => some (text, s.advance 1)
      | .gap =>
        let (gap, s) ← Gap.read 0 s.rest.length {} s
        quotedScalar quote fuel (text ++ gap.text) s
      | .escapedBreak =>
        let (gap, s) ← Gap.read 0 s.rest.length { breaks := ['\n'] } s
        quotedScalar quote fuel (text ++ gap.breaks.drop 1) s

/-! ## Block scalars -/

/-- What becomes of the line breaks at the end of a block. -/
inductive Chomping where
  | strip
  | clip
  | keep
  deriving DecidableEq

def chomping? : Char → Option Chomping
  | '-' => some .strip
  | '+' => some .keep
  | _ => none

/-- An explicit indentation is a digit from one to nine. -/
def indentDigit? (c : Char) : Option Nat :=
  if '1' ≤ c && c ≤ '9' then some (c.toNat - '0'.toNat) else none

/-- The two optional indicators after the bar, in either order. -/
def blockHeader (s : Spot) : Chomping × Option Nat × Spot :=
  match s.head?.bind chomping? with
  | some chomping =>
    let s := s.advance 1
    match s.head?.bind indentDigit? with
    | some n => (chomping, some n, s.advance 1)
    | none => (chomping, none, s)
  | none =>
    match s.head?.bind indentDigit? with
    | some n =>
      let s := s.advance 1
      match s.head?.bind chomping? with
      | some chomping => (chomping, some n, s.advance 1)
      | none => (.clip, some n, s)
    | none => (.clip, none, s)

/-- Reads indentation and empty lines. While the indentation is unknown, any
number of spaces belongs to it; `widest` is the largest number seen. -/
def blockBreaks (indent : Option Nat) : Nat → Nat → List Char → Spot → Option (List Char × Nat × Spot)
  | 0, _, _, _ => none
  | fuel + 1, widest, breaks, s =>
    let room := match indent with
      | none => s.rest.length
      | some n => n - s.column
    let s := s.advance ((s.rest.take room).takeWhile (· = ' ')).length
    let widest := max widest s.column
    if s.sees '\t' && indent.all (s.column < ·) then none
    else if s.seesBreak then
      let (br, s) := s.readBreak
      blockBreaks indent fuel widest (breaks ++ br) s
    else some (breaks, widest, s)

/-- The lines read so far and the breaks that follow them. -/
structure BlockText where
  text : List Char := []
  lastBreak : List Char := []
  emptyLines : List Char := []
  /-- Whether the last line starts with a blank, which is never folded. -/
  lastIsIndented : Bool := false

/-- Adds the lines that stand at the indentation. -/
def blockLines (literal : Bool) (indent : Nat) : Nat → BlockText → Spot → Option (BlockText × Spot)
  | 0, _, _ => none
  | fuel + 1, block, s =>
    if s.column = indent && !s.atEnd then do
      let indented := s.seesSpace
      let folds := !literal && block.lastBreak.head? = some '\n' && !block.lastIsIndented && !indented
      let joint := if folds then (if block.emptyLines.isEmpty then [' '] else []) else block.lastBreak
      let line := s.rest.takeWhile (!isBreak ·)
      let (lastBreak, s) := (s.advance line.length).readBreak
      let (emptyLines, _, s) ← blockBreaks (some indent) (s.rest.length + 1) 0 [] s
      blockLines literal indent fuel
        ⟨block.text ++ joint ++ block.emptyLines ++ line, lastBreak, emptyLines, indented⟩ s
    else some (block, s)

/-- A block scalar, from just past its bar. `parent` is the indentation of the
collection it stands in, negative outside of any. -/
def blockScalar (literal : Bool) (parent : Int) (s : Spot) : Option (List Char × Spot) := do
  let (chomping, explicit, s) := blockHeader s
  let s := s.skipToLineEnd
  if s.atLineEnd then
    let s := s.readBreak.2
    let known := explicit.map (· + parent.toNat)
    let (emptyLines, widest, s) ← blockBreaks known (s.rest.length + 1) 0 [] s
    let indent := known.getD (max widest (max (parent + 1).toNat 1))
    let (block, s) ← blockLines literal indent (s.rest.length + 1) { emptyLines } s
    let ending := match chomping with
      | .strip => []
      | .clip => block.lastBreak
      | .keep => block.lastBreak ++ block.emptyLines
    some (block.text ++ ending, s)
  else none

end SourceModel.Yaml
