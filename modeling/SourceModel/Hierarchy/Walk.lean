import SourceModel.Hierarchy.Basic
/-!
# Walking a hierarchy

Depth first, an item before its children, children in sibling order. An item
that stands for the root of a nested hierarchy is replaced by the walk of that
hierarchy. The walk keeps a stack of the items still to come, so its depth is
only bounded by the fuel.
-/

namespace SourceModel

/-- One step of a walk that leaves a trace. -/
inductive Visit where
  | path (path : Path)
  /-- The item is replaced by the hierarchy nested in it. -/
  | descend (item : ItemId)

namespace Hierarchy

/-- The items of a sibling chain, collected onto `found` in reverse. A chain
ends at no item or at the nil item; nothing is answered when the fuel ends
first. -/
def chain (h : Hierarchy) : Nat → Option ItemId → List ItemId → Option (List ItemId)
  | _, none, found => some found
  | fuel, some item, found =>
    if item = .nil then some found
    else match fuel with
      | 0 => none
      | fuel + 1 => h.chain fuel (h.nextSibling item) (item :: found)

/-- The children of an item, last first. There are only so many item numbers,
so a longer chain never ends. -/
def childrenReversed (h : Hierarchy) (item : ItemId) : Option (List ItemId) :=
  h.chain UInt32.size (h.firstChild item) []

/-- Walks the items on a stack, collecting the visits onto `seen` in reverse.
Nothing is answered when the fuel ends first. -/
def walkStack : Nat → List (Hierarchy × ItemId) → List Visit → Option (List Visit)
  | _, [], seen => some seen.reverse
  | 0, _ :: _, _ => none
  | fuel + 1, (h, item) :: stack, seen =>
    match h.replacement item with
    | some inner => walkStack fuel ((inner, .root) :: stack) (.descend item :: seen)
    | none =>
      match h.childrenReversed item with
      | none => none
      | some children =>
        walkStack fuel (children.foldl (fun stack child => (h, child) :: stack) stack)
          ((h.path item).elim seen (.path · :: seen))

/-- The visits of a walk from the root, if it takes at most `fuel` items. -/
def walk? (h : Hierarchy) (fuel : Nat) : Option (List Visit) :=
  walkStack fuel [(h, .root)] []

end Hierarchy

/-- The paths among the visits that pass a filter, in walk order. -/
def Visit.paths (visits : List Visit) (accept : Path → Bool) : List Path :=
  visits.filterMap fun
    | .path p => if accept p then some p else none
    | .descend _ => none

end SourceModel
