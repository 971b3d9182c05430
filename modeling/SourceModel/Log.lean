/-!
# Log lines

A log line has a level, a message and fields. How much of a log is shown is
chosen by a verbosity.
-/

namespace SourceModel

inductive Level where
  | warn
  | info
  | debug
  | trace
  deriving DecidableEq

namespace Level

def name : Level → String
  | .warn => "WARN"
  | .info => "INFO"
  | .debug => "DEBUG"
  | .trace => "TRACE"

/-- The verbosity from which on a level is shown. -/
def verbosity : Level → Nat
  | .warn => 0
  | .info => 1
  | .debug => 2
  | .trace => 3

end Level

structure LogLine where
  level : Level
  message : String
  fields : List (String × String) := []
  /-- Free text after the fields. -/
  remark : Option String := none

/-- A character of a message, with the controls that terminals act on spelled
out. -/
def escapeControl (c : Char) : List Char :=
  let hex := Nat.toDigits 16 c.toNat
  if c = '\x07' || c = '\x08' || c = '\x0c' then '\\' :: 'x' :: '0' :: hex
  else if c = '\x1b' || c = '\x7f' then '\\' :: 'x' :: hex
  else if '\u0080' ≤ c && c ≤ '\u009f' then '\\' :: 'u' :: '\x7b' :: hex ++ ['\x7d']
  else [c]

def escapeControls (text : String) : String :=
  String.ofList (text.toList.flatMap escapeControl)

namespace LogLine

def display (line : LogLine) : String :=
  let fields := line.fields.map fun (name, value) => name ++ "=" ++ value
  " ".intercalate ([line.level.name, line.message] ++ fields ++ (line.remark.map escapeControls).toList)

/-- The lines that are shown at a verbosity. -/
def shown (verbosity : Nat) (lines : List LogLine) : List LogLine :=
  lines.filter (·.level.verbosity ≤ verbosity)

end LogLine

end SourceModel
