import SourceModel.Path
/-!
# Hierarchies

A host's tree, reduced to four questions about an item: its path, its first
child, its next sibling, and the hierarchy nested in it. Item numbers are 32-bit
words of which two are reserved.
-/

namespace SourceModel

/-- An item within one hierarchy. -/
structure ItemId where
  number : UInt32
  deriving DecidableEq

namespace ItemId

/-- The root of any hierarchy. -/
def root : ItemId := ⟨0xFFFFFFFE⟩

/-- No item: it ends a chain of children. -/
def nil : ItemId := ⟨0xFFFFFFFF⟩

end ItemId

/-- A read-only view of a tree. A nested hierarchy comes with the item of it
that the asked item stands for. -/
inductive Hierarchy where
  | mk (path : ItemId → Option Path) (firstChild nextSibling : ItemId → Option ItemId)
      (nested : ItemId → Option (Hierarchy × ItemId))

namespace Hierarchy

def path : Hierarchy → ItemId → Option Path
  | mk path _ _ _ => path

def firstChild : Hierarchy → ItemId → Option ItemId
  | mk _ firstChild _ _ => firstChild

def nextSibling : Hierarchy → ItemId → Option ItemId
  | mk _ _ nextSibling _ => nextSibling

def nested : Hierarchy → ItemId → Option (Hierarchy × ItemId)
  | mk _ _ _ nested => nested

/-- The hierarchy that replaces an item in a walk: one nested in it by its root. -/
def replacement (h : Hierarchy) (item : ItemId) : Option Hierarchy :=
  (h.nested item).bind fun (inner, target) => if target = .root then some inner else none

/-! ## Tables of items -/

/-- An item with the answers to the four questions. -/
structure Row where
  id : ItemId
  path : Option Path
  firstChild : Option ItemId
  nextSibling : Option ItemId
  nested : Option (Hierarchy × ItemId)

/-- The hierarchy that answers from a table; for an item that is listed twice
the later row counts, and an item that is not listed has nothing. -/
def ofRows (rows : List Row) : Hierarchy :=
  let rows := rows.reverse
  let row := fun (item : ItemId) => rows.find? (·.id = item)
  .mk (fun item => (row item).bind (·.path)) (fun item => (row item).bind (·.firstChild))
    (fun item => (row item).bind (·.nextSibling)) (fun item => (row item).bind (·.nested))

end Hierarchy

end SourceModel
