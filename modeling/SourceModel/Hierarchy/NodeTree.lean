import SourceModel.Hierarchy.Basic
/-!
# Node trees

A tree that is built item by item. Items are numbered from one in the order in
which they are added; every item links to its first and last child and to its
next sibling.
-/

namespace SourceModel

structure Node where
  path : Option Path := none
  firstChild : Option ItemId := none
  lastChild : Option ItemId := none
  nextSibling : Option ItemId := none
  nested : Option Hierarchy := none

/-- The items of a tree; the root stands at index zero. -/
structure NodeTree where
  nodes : Array Node

namespace NodeTree

/-- A tree that holds only a root. -/
def ofRoot (path : Option Path) : NodeTree :=
  ⟨#[{ path }]⟩

/-- Number of items, root included. -/
def size (t : NodeTree) : Nat := t.nodes.size

def isEmpty (t : NodeTree) : Bool := t.size = 1

/-- Where an item is kept. The number zero is nobody's: the root has its own id. -/
def index? (t : NodeTree) (item : ItemId) : Option Nat :=
  if item = .root then some 0
  else if item = .nil ∨ item.number = 0 then none
  else if item.number.toNat < t.size then some item.number.toNat
  else none

def node? (t : NodeTree) (item : ItemId) : Option Node :=
  (t.index? item).bind (t.nodes[·]?)

def update (t : NodeTree) (index : Nat) (f : Node → Node) : NodeTree :=
  ⟨t.nodes.modify index f⟩

/-- Adds a node as the last child of `parent`. The answer is the new item, or
nothing when there is no such parent or no number left. -/
def push (t : NodeTree) (parent : ItemId) (node : Node) : NodeTree × Option ItemId :=
  match t.index? parent with
  | none => (t, none)
  | some p =>
    if t.size < UInt32.size then
      let id : ItemId := ⟨UInt32.ofNat t.size⟩
      let grown : NodeTree := ⟨t.nodes.push node⟩
      match (grown.nodes[p]?).bind (·.lastChild) with
      | none => (grown.update p ({ · with firstChild := some id, lastChild := some id }), some id)
      | some last =>
        match grown.index? last with
        | none => (grown, none)
        | some l =>
          ((grown.update l ({ · with nextSibling := some id })).update p ({ · with lastChild := some id }),
            some id)
    else (t, none)

def addItem (t : NodeTree) (parent : ItemId) (path : Option Path) : NodeTree × Option ItemId :=
  t.push parent { path }

/-- Adds an item that stands for the root of another hierarchy. -/
def addNested (t : NodeTree) (parent : ItemId) (inner : Hierarchy) : NodeTree × Option ItemId :=
  t.push parent { nested := some inner }

/-- The tree as a hierarchy. -/
def view (t : NodeTree) : Hierarchy :=
  .mk (fun item => (t.node? item).bind (·.path)) (fun item => (t.node? item).bind (·.firstChild))
    (fun item => (t.node? item).bind (·.nextSibling))
    (fun item => ((t.node? item).bind (·.nested)).map (·, .root))

def summary (t : NodeTree) : String :=
  "NodeTree \x7b items: " ++ toString t.size ++ ", .. \x7d"

end NodeTree

end SourceModel
