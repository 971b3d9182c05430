import SourceModel.Token
/-!
# Template lists

Between angle brackets stands a list of elements of a fixed width: two tokens
for a parameter, one for an argument. Any token may be part of an element, even
a comma or a bracket, because separators are only looked for where an element
has ended.
-/

namespace SourceModel

/-- How a scan over a template list ends. -/
inductive TemplateScan where
  /-- The list closes; `stop` is the offset just past the closing bracket. -/
  | closed (stop : Nat)
  /-- Neither a comma nor a closing bracket stands at `stop`. -/
  | broken (stop : Nat)
  deriving DecidableEq

/-- Scans the separators of a list whose elements span `width` tokens. The
tokens start at `offset`, where a separator has to stand. -/
def TemplateScan.run (width offset : Nat) : List Token → TemplateScan
  | [] => .broken offset
  | t :: rest =>
    if t.is ">" then .closed (offset + 1)
    else if t.is "," then TemplateScan.run width (offset + 1 + width) (rest.drop width)
    else .broken offset
termination_by ts => ts.length
decreasing_by simp only [List.length_drop, List.length_cons]; omega

end SourceModel
