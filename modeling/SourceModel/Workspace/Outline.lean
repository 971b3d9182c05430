import SourceModel.Hierarchy.NodeTree
import SourceModel.Hierarchy.Walk
/-!
# Outlines

An outline is a tree written as a tree: items with the items below them, and
projects that stand in the place of an item. A node tree is made from it by
adding every item under its parent, in order.
-/

namespace SourceModel

inductive Outline where
  | item (path : Path) (below : List Outline)
  /-- A project of its own, which becomes a nested hierarchy. -/
  | project (root : Path) (below : List Outline)

namespace Outline

mutual

/-- Adds an outline under an item. -/
def addTo (tree : NodeTree) (parent : ItemId) : Outline → NodeTree
  | .item path below =>
    match tree.addItem parent (some path) with
    | (tree, some id) => addAllTo tree id below
    | (tree, none) => tree
  | .project root below =>
    (tree.addNested parent (addAllTo (.ofRoot (some root)) .root below).view).1

def addAllTo (tree : NodeTree) (parent : ItemId) : List Outline → NodeTree
  | [] => tree
  | outline :: rest => addAllTo (addTo tree parent outline) parent rest

end

/-- The node tree with this root path and these outlines below. -/
def treeOf (root : Path) (below : List Outline) : NodeTree :=
  addAllTo (.ofRoot (some root)) .root below

mutual

/-- How many projects are nested in an outline, itself included. -/
def projects : Outline → Nat
  | .item _ below => projectsInAll below
  | .project _ below => projectsInAll below + 1

def projectsInAll : List Outline → Nat
  | [] => 0
  | outline :: rest => projects outline + projectsInAll rest

end

mutual

/-- How many items a walk visits: a nested project counts twice, once for the
item it replaces and once for its root. -/
def visits : Outline → Nat
  | .item _ below => visitsInAll below + 1
  | .project _ below => visitsInAll below + 2

def visitsInAll : List Outline → Nat
  | [] => 0
  | outline :: rest => visits outline + visitsInAll rest

end

end Outline

end SourceModel
