/-!
# JSON output

JSON values and their text over several lines, two blanks deeper per level.
-/

namespace SourceModel.CommandLine

inductive Json where
  | null
  | text (text : String)
  | array (items : List Json)
  | object (fields : List (String × Json))

namespace Json

/-- A character inside quotes. -/
def escape (c : Char) : List Char :=
  if c = '"' then ['\\', '"']
  else if c = '\\' then ['\\', '\\']
  else if c = '\n' then ['\\', 'n']
  else if c = '\r' then ['\\', 'r']
  else if c = '\t' then ['\\', 't']
  else if c = '\x08' then ['\\', 'b']
  else if c = '\x0c' then ['\\', 'f']
  else if c < ' ' then
    let digits := Nat.toDigits 16 c.toNat
    '\\' :: 'u' :: List.replicate (4 - digits.length) '0' ++ digits
  else [c]

def quote (text : String) : String :=
  String.ofList ('"' :: text.toList.flatMap escape ++ ['"'])

/-- Moves lines one level deeper. -/
def deeper (lines : List String) : List String := lines.map ("  " ++ ·)

/-- Adds a comma to the last line. -/
def withComma : List String → List String
  | [] => []
  | [line] => [line ++ ","]
  | line :: rest => line :: withComma rest

/-- Puts a text in front of the first line. -/
def after (lead : String) : List String → List String
  | [] => [lead]
  | line :: rest => (lead ++ line) :: rest

/-- Blocks of lines with a comma after all but the last. -/
def separate : List (List String) → List String
  | [] => []
  | [block] => block
  | block :: rest => withComma block ++ separate rest

/-- Blocks of lines between two brackets, on one line if there is none. -/
def enclose (opening closing : String) (blocks : List (List String)) : List String :=
  if blocks.isEmpty then [opening ++ closing]
  else opening :: deeper (separate blocks) ++ [closing]

mutual

/-- The lines of a value. -/
def lines : Json → List String
  | .null => ["null"]
  | .text content => [quote content]
  | .array items => enclose "[" "]" (linesOfAll items)
  | .object fields => enclose "\x7b" "\x7d" (linesOfFields fields)

def linesOfAll : List Json → List (List String)
  | [] => []
  | item :: rest => lines item :: linesOfAll rest

def linesOfFields : List (String × Json) → List (List String)
  | [] => []
  | field :: rest => linesOfField field :: linesOfFields rest

def linesOfField : String × Json → List String
  | (name, value) => after (quote name ++ ": ") (lines value)

end

end Json

end SourceModel.CommandLine
