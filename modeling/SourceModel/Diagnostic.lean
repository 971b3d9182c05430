import SourceModel.Path
import SourceModel.Token
/-!
# Diagnostics

A diagnostic is a plain value: what is wrong, and where. Opening the document
there is the host's business, through its navigator.
-/

namespace SourceModel

structure Diagnostic where
  message : String
  document : Path
  position : Position
  deriving BEq

/-- Why a host could not show a position. -/
inductive NavigationError where
  | documentUnavailable (document : Path)
  | bufferUnavailable (document : Path)

def NavigationError.message : NavigationError → String
  | .documentUnavailable document => s!"cannot open document: {document.text}"
  | .bufferUnavailable document => s!"document has no text buffer: {document.text}"

/-- A host's way to open a document and place the caret. -/
abbrev Navigator (m : Type → Type) :=
  Path → Position → m (Except NavigationError Unit)

namespace Diagnostic

/-- The diagnostic on one line, with zero-based coordinates. -/
def display (d : Diagnostic) : String :=
  s!"{d.document.text}:{d.position.line}:{d.position.column}: {d.message}"

/-- Asks the host to show the diagnostic; without a document there is nothing
to show and the host is not asked. -/
def navigate {m : Type → Type} [Pure m] (d : Diagnostic) (host : Navigator m) :
    m (Except NavigationError Unit) :=
  if d.document.text = "" then pure (.ok ()) else host d.document d.position

end Diagnostic

end SourceModel
