import SourceModel.Workspace.Scan
import SourceModel.Proofs.Hierarchy.Walk
/-!
# A tree made from outlines lists them

A node tree is made from outlines by adding items one by one, where nested
projects are trees of their own. `Shows` says that an item of such a tree stands
for an outline: it has the path, and its children stand for the outlines below.
Items added later hang below other items, so they change nothing of what an
item shows (`Shows.grow`). The walk of the finished tree therefore lists the
outlines in order, and takes as many steps as there are visits.
-/

namespace SourceModel

namespace Outline

mutual

/-- The paths of an outline, each before those below it. -/
def paths : Outline → List Path
  | .item path below => path :: pathsInAll below
  | .project root below => root :: pathsInAll below

def pathsInAll : List Outline → List Path
  | [] => []
  | outline :: rest => paths outline ++ pathsInAll rest

end

end Outline

namespace NodeTree

open Outline (pathsInAll visitsInAll treeOf addTo addAllTo)
open Hierarchy (Siblings YieldsIn)

mutual

/-- The item at an index stands for an outline, given the parents of all items. -/
def Shows (t : NodeTree) (parent : Nat → Nat) : Outline → Nat → Prop
  | .item path below, i =>
    (∃ node, t.nodes[i]? = some node ∧ node.path = some path ∧ node.nested = none) ∧
      ShowsAll t parent below (childrenOf parent t.size i)
  | .project root below, i => ∃ node, t.nodes[i]? = some node ∧ node.nested = some (treeOf root below).view

/-- The items at these indices stand for these outlines, one for each. -/
def ShowsAll (t : NodeTree) (parent : Nat → Nat) : List Outline → List Nat → Prop
  | [], indices => indices = []
  | outline :: rest, indices =>
    ∃ i others, indices = i :: others ∧ Shows t parent outline i ∧ ShowsAll t parent rest others

end

/-! ## Adding items elsewhere -/

/-- The second tree has all items of the first, and perhaps more. Of the old
items only the one at `p` has other children than before. -/
structure Grown (p : Nat) (t : NodeTree) (parent : Nat → Nat) (t' : NodeTree) (parent' : Nat → Nat) : Prop where
  old : Linked t parent
  new : Linked t' parent'
  size_le : t.size ≤ t'.size
  kept : ∀ (i : Nat) (node : Node), t.nodes[i]? = some node →
    ∃ node', t'.nodes[i]? = some node' ∧ node'.path = node.path ∧ node'.nested = node.nested
  children : ∀ q, q < t.size → q ≠ p → childrenOf parent' t'.size q = childrenOf parent t.size q

theorem Grown.refl (p : Nat) {t : NodeTree} {parent : Nat → Nat} (h : Linked t parent) :
    Grown p t parent t parent where
  old := h
  new := h
  size_le := Nat.le_refl _
  kept _ node hnode := ⟨node, hnode, rfl, rfl⟩
  children _ _ _ := rfl

/-- What grows below an item that was not there yet grows below its parent. -/
theorem Grown.trans {p n : Nat} {t t' t'' : NodeTree} {parent parent' parent'' : Nat → Nat}
    (h : Grown p t parent t' parent') (h' : Grown n t' parent' t'' parent'') (hn : n = p ∨ t.size ≤ n) :
    Grown p t parent t'' parent'' where
  old := h.old
  new := h'.new
  size_le := Nat.le_trans h.size_le h'.size_le
  kept i node hnode := by
    obtain ⟨node', hnode', hpath, hnested⟩ := h.kept i node hnode
    obtain ⟨node'', hnode'', hpath', hnested'⟩ := h'.kept i node' hnode'
    exact ⟨node'', hnode'', hpath'.trans hpath, hnested'.trans hnested⟩
  children q hq hne := by
    have hqn : q ≠ n := by omega
    rw [h'.children q (Nat.lt_of_lt_of_le hq h.size_le) hqn, h.children q hq hne]

mutual

/-- An item newer than the one that gets children shows what it showed: all
below it is newer still. -/
theorem Shows.grow {p : Nat} {t t' : NodeTree} {parent parent' : Nat → Nat} (h : Grown p t parent t' parent') :
    ∀ (outline : Outline) {i : Nat}, p < i → Shows t parent outline i → Shows t' parent' outline i
  | .item path below, i, hi, ⟨⟨node, hnode, hpath, hnested⟩, hbelow⟩ => by
    obtain ⟨node', hnode', hpath', hnested'⟩ := h.kept i node hnode
    have hlt : i < t.size := (Array.getElem?_eq_some_iff.1 hnode).1
    refine ⟨⟨node', hnode', hpath'.trans hpath, hnested'.trans hnested⟩, ?_⟩
    rw [h.children i hlt (Nat.ne_of_gt hi)]
    refine ShowsAll.grow h below (fun c hc => ?_) hbelow
    obtain ⟨hclt, hpos, hparent⟩ := mem_childrenOf.1 hc
    have := h.old.parent_lt c hpos hclt
    omega
  | .project root below, i, _, ⟨node, hnode, hnested⟩ => by
    obtain ⟨node', hnode', -, hnested'⟩ := h.kept i node hnode
    exact ⟨node', hnode', hnested'.trans hnested⟩

theorem ShowsAll.grow {p : Nat} {t t' : NodeTree} {parent parent' : Nat → Nat} (h : Grown p t parent t' parent') :
    ∀ (outlines : List Outline) {indices : List Nat}, (∀ i ∈ indices, p < i) →
      ShowsAll t parent outlines indices → ShowsAll t' parent' outlines indices
  | [], _, _, hall => hall
  | outline :: rest, _, hnewer, ⟨i, others, hsplit, hfirst, hrest⟩ => by
    subst hsplit
    have hothers : ∀ j ∈ others, p < j := fun j hj => hnewer j (List.mem_cons_of_mem _ hj)
    exact ⟨i, others, rfl, Shows.grow h outline (hnewer i List.mem_cons_self) hfirst,
      ShowsAll.grow h rest hothers hrest⟩

end

/-! ## Adding outlines -/

/-- Under the item at `p` new children were added that show these outlines. -/
structure Adds (p : Nat) (t : NodeTree) (parent : Nat → Nat) (outlines : List Outline) (t' : NodeTree)
    (parent' : Nat → Nat) (added : List Nat) : Prop where
  grown : Grown p t parent t' parent'
  size_le : t'.size ≤ t.size + (pathsInAll outlines).length
  children : childrenOf parent' t'.size p = childrenOf parent t.size p ++ added
  newer : ∀ i ∈ added, t.size ≤ i
  shows : ShowsAll t' parent' outlines added

theorem Adds.cons {p i : Nat} {t t' t'' : NodeTree} {parent parent' parent'' : Nat → Nat} {outline : Outline}
    {rest : List Outline} {others : List Nat} (hp : p < t.size) (h : Adds p t parent [outline] t' parent' [i])
    (h' : Adds p t' parent' rest t'' parent'' others) :
    Adds p t parent (outline :: rest) t'' parent'' (i :: others) where
  grown := h.grown.trans h'.grown (.inl rfl)
  size_le := by
    have hle := h.size_le
    have hle' := h'.size_le
    simp only [pathsInAll, List.append_nil, List.length_append] at hle ⊢
    omega
  children := by rw [h'.children, h.children, List.append_assoc, List.singleton_append]
  newer := by
    refine List.forall_mem_cons.2 ⟨h.newer i List.mem_cons_self, fun j hj => ?_⟩
    exact Nat.le_trans h.grown.size_le (h'.newer j hj)
  shows := by
    obtain ⟨j, _, hsplit, hshows, -⟩ := h.shows
    cases hsplit
    have hi := h.newer i List.mem_cons_self
    exact ⟨i, others, rfl, Shows.grow h'.grown outline (by omega) hshows, h'.shows⟩

/-- A new item has its parent and no children. -/
theorem Linked.grown_push {t : NodeTree} {parent : Nat → Nat} (hlinked : Linked t parent) {p : Nat}
    (hp : p < t.size) (node : Node) (hfirst : node.firstChild = none) (hlast : node.lastChild = none)
    (hnext : node.nextSibling = none) (hsize : t.size < 0xFFFFFFFE) :
    ∃ t' parent', t.push (idAt p) node = (t', some (idAt t.size)) ∧ t'.size = t.size + 1 ∧
      t'.nodes[t.size]? = some node ∧ Grown p t parent t' parent' ∧
      childrenOf parent' t'.size p = childrenOf parent t.size p ++ [t.size] ∧
      childrenOf parent' t'.size t.size = [] := by
  obtain ⟨t', last, hpush, hsize', hnodes, hlinked'⟩ :=
    hlinked.push node hfirst hlast hnext (index?_idAt hp (Nat.lt_trans hp hsize)) hsize
  have hget : ∀ i, i < t'.size → ∃ found, t'.nodes[i]? = some found :=
    fun i hi => ⟨_, Array.getElem?_eq_getElem hi⟩
  have hchildren := fun q => hsize' ▸ childrenOf_update parent hlinked.nonempty p q
  refine ⟨t', _, hpush, hsize', ?_, ⟨hlinked, hlinked', by omega, ?_, ?_⟩, ?_, ?_⟩
  · obtain ⟨found, hfound⟩ := hget t.size (by omega)
    obtain ⟨-, rfl⟩ | ⟨old, hold, -⟩ := hnodes _ found hfound
    · exact hfound
    · exact absurd (Array.getElem?_eq_some_iff.1 hold).1 (Nat.lt_irrefl _)
  · intro i old hold
    have hi : i < t.size := (Array.getElem?_eq_some_iff.1 hold).1
    obtain ⟨found, hfound⟩ := hget i (by omega)
    obtain ⟨rfl, -⟩ | ⟨old', hold', rfl⟩ := hnodes i found hfound
    · exact absurd hi (Nat.lt_irrefl _)
    · cases hold.symm.trans hold'
      exact ⟨_, hfound, rfl, rfl⟩
  · intro q _ hne
    rw [hchildren, if_neg hne, List.append_nil]
  · rw [hchildren, if_pos rfl]
  · rw [hchildren, hlinked.childrenOf_size, if_neg (Nat.ne_of_gt hp)]
    rfl

mutual

theorem addTo_adds : ∀ (outline : Outline) {t : NodeTree} {parent : Nat → Nat} {p : Nat}, Linked t parent →
    p < t.size → t.size + outline.paths.length ≤ 0xFFFFFFFE →
    ∃ parent', Adds p t parent [outline] (addTo t (idAt p) outline) parent' [t.size]
  | .item path below, t, parent, p, hlinked, hp, hroom => by
    rw [Outline.paths, List.length_cons] at hroom
    obtain ⟨t', parent', hpush, hsize, hnode, hgrown, hchildren, hnone⟩ :=
      hlinked.grown_push hp { path := some path } rfl rfl rfl (by omega)
    have hnew : t.size < t'.size := by omega
    obtain ⟨parent'', added, hadds⟩ := addAllTo_adds below hgrown.new hnew (by omega)
    have hadd : addTo t (idAt p) (.item path below) = addAllTo t' (idAt t.size) below := by
      rw [addTo, addItem, hpush]
    rw [hadd]
    refine ⟨parent'', hgrown.trans hadds.grown (.inr (Nat.le_refl _)), ?_, ?_, by simp, ?_⟩
    · have hle := hadds.size_le
      simp only [pathsInAll, Outline.paths, List.append_nil, List.length_cons]
      omega
    · rw [hadds.grown.children p (by omega) (Nat.ne_of_lt hp), hchildren]
    · obtain ⟨node, hfound, hpath, hnested⟩ := hadds.grown.kept t.size _ hnode
      refine ⟨t.size, [], rfl, ⟨⟨node, hfound, hpath, hnested⟩, ?_⟩, rfl⟩
      rw [hadds.children, hnone, List.nil_append]
      exact hadds.shows
  | .project root below, t, parent, p, hlinked, hp, hroom => by
    rw [Outline.paths, List.length_cons] at hroom
    obtain ⟨t', parent', hpush, hsize, hnode, hgrown, hchildren, hnone⟩ :=
      hlinked.grown_push hp { nested := some (treeOf root below).view } rfl rfl rfl (by omega)
    have hadd : addTo t (idAt p) (.project root below) = t' := by
      rw [addTo, addNested]
      exact congrArg Prod.fst hpush
    rw [hadd]
    refine ⟨parent', hgrown, ?_, hchildren, by simp, t.size, [], rfl, ⟨_, hnode, rfl⟩, rfl⟩
    simp only [pathsInAll, Outline.paths, List.append_nil, List.length_cons]
    omega

theorem addAllTo_adds : ∀ (outlines : List Outline) {t : NodeTree} {parent : Nat → Nat} {p : Nat},
    Linked t parent → p < t.size → t.size + (pathsInAll outlines).length ≤ 0xFFFFFFFE →
    ∃ parent' added, Adds p t parent outlines (addAllTo t (idAt p) outlines) parent' added
  | [], t, parent, p, hlinked, _, _ =>
    ⟨parent, [], .refl p hlinked, Nat.le_refl _, (List.append_nil _).symm, by simp, rfl⟩
  | outline :: rest, t, parent, p, hlinked, hp, hroom => by
    rw [pathsInAll, List.length_append] at hroom
    obtain ⟨parent', hfirst⟩ := addTo_adds outline hlinked hp (by omega)
    have hle := hfirst.size_le
    simp only [pathsInAll, List.append_nil] at hle
    have hp' := Nat.lt_of_lt_of_le hp hfirst.grown.size_le
    obtain ⟨parent'', others, hrest⟩ := addAllTo_adds rest hfirst.grown.new hp' (by omega)
    exact ⟨parent'', _, hfirst.cons hp hrest⟩

end

/-! ## The walk -/

/-- An item without a nested tree is visited, and then its children are. -/
theorem Linked.yieldsIn_item {t : NodeTree} {parent : Nat → Nat} (hlinked : Linked t parent) (hsmall : t.Small)
    {i cost : Nat} {node : Node} {path : Path} {paths : List Path} (hnode : t.nodes[i]? = some node)
    (hpath : node.path = some path) (hnested : node.nested = none)
    (hchildren : YieldsIn cost ((childrenOf parent t.size i).map fun c => (t.view, idAt c)) paths) :
    YieldsIn (cost + 1) [(t.view, idAt i)] (path :: paths) := by
  have hi : i < t.size := (Array.getElem?_eq_some_iff.1 hnode).1
  have hfound : t.node? (idAt i) = some node := by rw [node?_idAt hi (hsmall.lt hi), hnode]
  have hpath' : t.view.path (idAt i) = some path := by
    change (t.node? (idAt i)).bind (·.path) = _
    rw [hfound, Option.bind_some, hpath]
  have hnested' : t.view.nested (idAt i) = none := by
    change ((t.node? (idAt i)).bind (·.nested)).map (·, ItemId.root) = _
    rw [hfound, Option.bind_some, hnested]
    rfl
  have hfirst : t.view.firstChild (idAt i) = (childrenOf parent t.size i).head?.map idAt := by
    change (t.node? (idAt i)).bind (·.firstChild) = _
    rw [hfound]
    exact hlinked.firstChild i node hnode
  have hsiblings := hlinked.siblings hsmall [] (childrenOf parent t.size i) rfl
  rw [← hfirst] at hsiblings
  have hplain := YieldsIn.plain (by simp [hnested']) hsiblings (by rwa [List.map_map])
  rwa [hpath'] at hplain

/-- The tree made from outlines, with the parents of its items. -/
theorem exists_linked_treeOf (root : Path) (below : List Outline) (hsmall : (pathsInAll below).length < 0xFFFFFFFE) :
    ∃ parent, Linked (treeOf root below) parent ∧ (treeOf root below).Small ∧
      (∃ node, (treeOf root below).nodes[0]? = some node ∧ node.path = some root ∧ node.nested = none) ∧
      ShowsAll (treeOf root below) parent below (childrenOf parent (treeOf root below).size 0) := by
  obtain ⟨parent, hlinked⟩ := (sound_ofRoot (some root)).linked
  have hsize : (ofRoot (some root)).size = 1 := rfl
  obtain ⟨parent', added, hadds⟩ := addAllTo_adds below hlinked (p := 0) (by omega) (by omega)
  have hchildren : childrenOf parent (ofRoot (some root)).size 0 = [] := by simp [hsize, childrenOf]
  refine ⟨parent', hadds.grown.new, ?_, hadds.grown.kept 0 _ rfl, ?_⟩
  · have hle : (treeOf root below).size ≤ _ := hadds.size_le
    unfold Small
    omega
  · have hall := hadds.children
    rw [hchildren, List.nil_append] at hall
    exact hall ▸ hadds.shows

mutual

theorem Shows.yieldsIn : ∀ (outline : Outline) {t : NodeTree} {parent : Nat → Nat} {i : Nat}, Linked t parent →
    t.Small → outline.paths.length < 0xFFFFFFFE → Shows t parent outline i →
    YieldsIn outline.visits [(t.view, idAt i)] outline.paths
  | .item path below, t, parent, i, hlinked, hsmall, hfew, ⟨⟨node, hnode, hpath, hnested⟩, hbelow⟩ => by
    rw [Outline.paths, List.length_cons] at hfew
    exact hlinked.yieldsIn_item hsmall hnode hpath hnested
      (ShowsAll.yieldsIn below hlinked hsmall (by omega) hbelow)
  | .project root below, t, parent, i, hlinked, hsmall, hfew, ⟨node, hnode, hnested⟩ => by
    rw [Outline.paths, List.length_cons] at hfew
    -- The nested tree was made from the outlines below in the same way.
    obtain ⟨parent', hlinked', hsmall', ⟨node', hnode', hpath', hnested'⟩, hbelow⟩ :=
      exists_linked_treeOf root below (by omega)
    have hinner := hlinked'.yieldsIn_item hsmall' hnode' hpath' hnested'
      (ShowsAll.yieldsIn below hlinked' hsmall' (by omega) hbelow)
    have hi : i < t.size := (Array.getElem?_eq_some_iff.1 hnode).1
    refine YieldsIn.replaced ?_ hinner
    change ((t.node? (idAt i)).bind (·.nested)).map (·, ItemId.root) = _
    rw [node?_idAt hi (hsmall.lt hi), hnode, Option.bind_some, hnested]
    rfl

theorem ShowsAll.yieldsIn : ∀ (outlines : List Outline) {t : NodeTree} {parent : Nat → Nat} {indices : List Nat},
    Linked t parent → t.Small → (pathsInAll outlines).length < 0xFFFFFFFE → ShowsAll t parent outlines indices →
    YieldsIn (visitsInAll outlines) (indices.map fun c => (t.view, idAt c)) (pathsInAll outlines)
  | [], _, _, _, _, _, _, hall => by
    rw [ShowsAll] at hall
    subst hall
    exact .nil
  | outline :: rest, t, parent, _, hlinked, hsmall, hfew, ⟨i, others, hsplit, hfirst, hrest⟩ => by
    subst hsplit
    rw [pathsInAll, List.length_append] at hfew
    have happend := (Shows.yieldsIn outline hlinked hsmall (by omega) hfirst).append
      (ShowsAll.yieldsIn rest hlinked hsmall (by omega) hrest)
    rwa [Nat.add_comm] at happend

end

/-- The tree of a few outlines is walked in as many steps as it has visits, and
lists the root and then the outlines. -/
theorem walk?_treeOf (root : Path) (below : List Outline) (hsmall : (pathsInAll below).length < 0xFFFFFFFE) :
    ∃ visits : List Visit,
      (∀ fuel, visitsInAll below + 1 ≤ fuel → (treeOf root below).view.walk? fuel = some visits) ∧
      ∀ accept, Visit.paths visits accept = (root :: pathsInAll below).filter accept := by
  obtain ⟨parent, hlinked, hsmall', ⟨node, hnode, hpath, hnested⟩, hbelow⟩ := exists_linked_treeOf root below hsmall
  exact (hlinked.yieldsIn_item hsmall' hnode hpath hnested
    (ShowsAll.yieldsIn below hlinked hsmall' hsmall hbelow)).exists_visits

end NodeTree

/-- The visits of a scan are the whole walk of its tree. -/
theorem Scan.walk_visits (scan : Scan) (hsmall : (Outline.pathsInAll scan.listing.outlines).length < 0xFFFFFFFE) :
    (∃ fuel, scan.tree.view.walk? fuel = some scan.visits) ∧
      ∀ accept, Visit.paths scan.visits accept =
        (scan.root :: Outline.pathsInAll scan.listing.outlines).filter accept := by
  obtain ⟨visits, hwalk, hpaths⟩ := NodeTree.walk?_treeOf scan.root _ hsmall
  have hvisits : scan.visits = visits := by
    rw [Scan.visits, Scan.tree, hwalk _ (Nat.le_refl _), Option.getD_some]
  rw [hvisits]
  exact ⟨⟨_, hwalk _ (Nat.le_refl _)⟩, hpaths⟩

end SourceModel
