import SourceModel.Parsing.SumType
/-!
# Parsing a file

A file is read declaration by declaration. There is no recovery: the pass ends
with the tokens, or at the first place where no declaration stands or one is
malformed, and what was recognised before that place is kept.
-/

namespace SourceModel.Parsing

/-- Why a pass stopped early. A malformed declaration is reported at the
offending token, or at its own first token when the file ends before that. -/
structure Failure where
  flaw : Flaw
  position : Position
  deriving DecidableEq

/-- What a pass over a file found. -/
structure ParsedFile where
  declarations : List SumType
  failure : Option Failure
  deriving DecidableEq

namespace ParsedFile

def outcome (parsed : ParsedFile) : FileOutcome :=
  if parsed.failure.isSome then .failed else .success

/-- The record kept of a file with this result. -/
def record (parsed : ParsedFile) (path : Path) : FileRecord :=
  ⟨path, parsed.outcome, parsed.declarations.length⟩

end ParsedFile

/-- Parses the tokens of a file, or what is left of them. -/
def parseTokens : List Token → ParsedFile
  | [] => ⟨[], none⟩
  | t :: rest =>
    match sumType (t :: rest) with
    | .matched type consumed =>
      let others := parseTokens (rest.drop (consumed - 1))
      { others with declarations := type :: others.declarations }
    | .noMatch => ⟨[], some ⟨⟨.unrecognized t.text, 0⟩, t.position⟩⟩
    | .malformed flaw => ⟨[], some ⟨flaw, ((t :: rest)[flaw.offset]?.getD t).position⟩⟩
termination_by ts => ts.length
decreasing_by simp only [List.length_drop, List.length_cons]; omega

end SourceModel.Parsing
