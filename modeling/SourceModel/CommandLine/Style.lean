/-!
# Styled text

Text for a terminal, in bold, dimmed or in colour. Styling can be switched off,
and then a text is left as it is.
-/

namespace SourceModel.CommandLine

inductive Colour where
  | red
  | green
  | yellow
  | cyan
  | white
  deriving DecidableEq

def Colour.code : Colour → String
  | .red => "31"
  | .green => "32"
  | .yellow => "33"
  | .cyan => "36"
  | .white => "37"

structure Style where
  bold : Bool := false
  dimmed : Bool := false
  colour : Option Colour := none

namespace Style

def heading (colour : Colour) : Style := { bold := true, colour := some colour }

def plain (colour : Colour) : Style := { colour := some colour }

def faint : Style := { dimmed := true }

/-- Ends all styles. -/
def reset : String := "\x1b[0m"

/-- Starts a style: weight before colour. -/
def start (style : Style) : String :=
  let codes := (if style.bold then ["1"] else []) ++ (if style.dimmed then ["2"] else []) ++
    (style.colour.map Colour.code).toList
  "\x1b[" ++ ";".intercalate codes ++ "m"

/-- Styles a text. A text that resets styles itself gets the style back. -/
def paint (enabled : Bool) (style : Style) (text : String) : String :=
  if enabled then style.start ++ text.replace reset (reset ++ style.start) ++ reset else text

end Style

end SourceModel.CommandLine
