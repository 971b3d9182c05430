import SourceModel.Proofs.Hierarchy.Links
/-!
# Built trees are walked to the end

A tree that is made by adding items one by one, with trees made the same way
nested in it, unfolds to the end: children are newer than their parents, and a
nested tree was finished before it was added. `walk_preorder` puts this
together with what a walk lists.
-/

namespace SourceModel.NodeTree

open Hierarchy (Siblings Unfolds Preorder)

/-- A tree made by adding items, under whatever parents, to a lone root. What is
nested in it are small trees made in the same way. -/
inductive Built : NodeTree → Prop
  | ofRoot (path : Option Path) : Built (.ofRoot path)
  | addItem {t : NodeTree} (parent : ItemId) (path : Option Path) : Built t → Built (t.addItem parent path).1
  | addNested {t inner : NodeTree} (parent : ItemId) :
      Built t → Built inner → inner.Small → Built (t.addNested parent inner.view).1

/-- The links are those of some parents, and what is nested unfolds to the end. -/
structure Sound (t : NodeTree) : Prop where
  linked : ∃ parent, Linked t parent
  nested : ∀ (i : Nat) (node : Node) (inner : Hierarchy), t.nodes[i]? = some node →
    node.nested = some inner → Unfolds inner .root

/-! ## Unfolding -/

theorem Small.lt {t : NodeTree} (hsmall : t.Small) {i : Nat} (hi : i < t.size) : i < 0xFFFFFFFE := by
  unfold Small at hsmall
  omega

/-- The links list the children of an item from any of them on. -/
theorem Linked.siblings {t : NodeTree} {parent : Nat → Nat} (hlinked : Linked t parent) (hsmall : t.Small)
    {p : Nat} (before after : List Nat) (hsplit : childrenOf parent t.size p = before ++ after) :
    Siblings t.view (after.head?.map idAt) (after.map idAt) := by
  induction after generalizing before with
  | nil => exact .none
  | cons c after ih =>
    have hmem : c ∈ before ++ c :: after := by simp
    have hc := (mem_childrenOf.1 (hsplit ▸ hmem)).1
    have hnext : t.view.nextSibling (idAt c) = after.head?.map idAt := by
      have hnode : t.nodes[c]? = some t.nodes[c] := Array.getElem?_eq_getElem hc
      change (t.node? (idAt c)).bind (·.nextSibling) = _
      rw [node?_idAt hc (hsmall.lt hc), hnode]
      exact hlinked.nextSibling p before c after _ hsplit hnode
    refine .item (idAt_ne_nil (hsmall.lt hc)) ?_
    rw [hnext]
    exact ih (before ++ [c]) (by simp [hsplit])

/-- Every item unfolds to the end, the newest first. -/
theorem Sound.unfolds {t : NodeTree} (hsound : t.Sound) (hsmall : t.Small) {i : Nat} (hi : i < t.size) :
    Unfolds t.view (idAt i) := by
  obtain ⟨parent, hlinked⟩ := hsound.linked
  induction hn : t.size - i using Nat.strongRecOn generalizing i with
  | ind n ih =>
    have hnode : t.nodes[i]? = some t.nodes[i] := Array.getElem?_eq_getElem hi
    have hfound : t.node? (idAt i) = some t.nodes[i] := by rw [node?_idAt hi (hsmall.lt hi), hnode]
    have hnested : t.view.nested (idAt i) = t.nodes[i].nested.map (·, ItemId.root) := by
      change ((t.node? (idAt i)).bind (·.nested)).map (·, ItemId.root) = _
      rw [hfound]
      rfl
    cases hinner : t.nodes[i].nested with
    | some inner =>
      rw [hinner] at hnested
      exact .replaced hnested (hsound.nested i _ inner hnode hinner)
    | none =>
      rw [hinner] at hnested
      have hfirst : t.view.firstChild (idAt i) = (childrenOf parent t.size i).head?.map idAt := by
        change (t.node? (idAt i)).bind (·.firstChild) = _
        rw [hfound]
        exact hlinked.firstChild i _ hnode
      have hsiblings := hlinked.siblings hsmall [] (childrenOf parent t.size i) rfl
      rw [← hfirst] at hsiblings
      refine .plain (by simp [hnested]) hsiblings ?_
      · intro c hc
        obtain ⟨c, hmem, rfl⟩ := List.mem_map.1 hc
        obtain ⟨hlt, hpos, hparent⟩ := mem_childrenOf.1 hmem
        have := hlinked.parent_lt c hpos hlt
        exact ih (t.size - c) (by omega) hlt rfl

theorem Sound.unfolds_root {t : NodeTree} (hsound : t.Sound) (hsmall : t.Small) : Unfolds t.view .root := by
  obtain ⟨parent, hlinked⟩ := hsound.linked
  exact hsound.unfolds hsmall hlinked.nonempty

/-! ## Building -/

/-- A tree stays as it is, or a parent was found and the tree grew by one. -/
theorem push_cases (t : NodeTree) (item : ItemId) (node : Node) :
    (t.push item node).1 = t ∨
      ∃ p, t.index? item = some p ∧ (t.push item node).1.size = t.size + 1 := by
  unfold push
  cases t.index? item with
  | none => exact .inl rfl
  | some p =>
    by_cases hroom : t.size < UInt32.size
    · refine .inr ⟨p, rfl, ?_⟩
      simp only [hroom, if_true]
      split
      · simp [update, size]
      · split <;> simp [update, size]
    · left
      simp [hroom]

theorem small_of_push {t : NodeTree} {item : ItemId} {node : Node} (hsmall : (t.push item node).1.Small) :
    t.Small := by
  rcases push_cases t item node with h | ⟨p, -, h⟩
  · rwa [h] at hsmall
  · unfold Small at hsmall ⊢
    omega

theorem Sound.push {t : NodeTree} (hsound : t.Sound) {item : ItemId} {node : Node}
    (hfirst : node.firstChild = none) (hlast : node.lastChild = none) (hnext : node.nextSibling = none)
    (hnode : ∀ inner, node.nested = some inner → Unfolds inner .root) (hsmall : (t.push item node).1.Small) :
    (t.push item node).1.Sound := by
  rcases push_cases t item node with h | ⟨p, hp, hgrown⟩
  · rwa [h]
  · obtain ⟨parent, hlinked⟩ := hsound.linked
    have hsize : t.size < 0xFFFFFFFE := by
      unfold Small at hsmall
      omega
    obtain ⟨t', last, hpush, -, hnodes, hlinked'⟩ := hlinked.push node hfirst hlast hnext hp hsize
    rw [hpush]
    refine ⟨⟨_, hlinked'⟩, fun i found inner hfound hinner => ?_⟩
    obtain ⟨-, rfl⟩ | ⟨old, hold, rfl⟩ := hnodes i found hfound
    · exact hnode inner hinner
    · exact hsound.nested i old inner hold hinner

theorem sound_ofRoot (path : Option Path) : (ofRoot path).Sound := by
  have hnodes : ∀ (i : Nat) (node : Node), (ofRoot path).nodes[i]? = some node → node = { path } := by
    intro i node h
    simp only [ofRoot, List.getElem?_toArray] at h
    exact List.mem_singleton.1 (List.mem_of_getElem? h)
  have hchildren : ∀ p, childrenOf (fun _ => 0) (ofRoot path).size p = [] := by
    intro p
    simp [childrenOf, ofRoot, size]
  refine ⟨⟨fun _ => 0, Nat.one_pos, fun c hc hlt => hc, ?_, ?_, ?_⟩, ?_⟩
  · intro p node h
    rw [hnodes p node h, hchildren]
    rfl
  · intro p node h
    rw [hnodes p node h, hchildren]
    rfl
  · intro p before c after node h
    simp [hchildren] at h
  · intro i node inner h hinner
    rw [hnodes i node h] at hinner
    cases hinner

theorem Built.sound {t : NodeTree} (hbuilt : t.Built) (hsmall : t.Small) : t.Sound := by
  induction hbuilt with
  | ofRoot path => exact sound_ofRoot path
  | addItem parent path _ ih =>
    exact (ih (small_of_push hsmall)).push rfl rfl rfl (by simp) hsmall
  | addNested parent _ _ hinner ih ihinner =>
    refine (ih (small_of_push hsmall)).push rfl rfl rfl ?_ hsmall
    rintro inner ⟨⟩
    exact (ihinner hinner).unfolds_root hinner

theorem Built.unfolds {t : NodeTree} (hbuilt : t.Built) (hsmall : t.Small) : Unfolds t.view .root :=
  (hbuilt.sound hsmall).unfolds_root hsmall

/-! ## The walk -/

/-- A hierarchy that unfolds to the end lists one list of paths. From some fuel
on its walk ends, always with the same visits, and those that pass a filter are
the paths of that list that do, in order. Every small tree that was built from
small trees unfolds to the end. -/
theorem walk_preorder :
    (∀ h : Hierarchy, Unfolds h .root →
      ∃ paths, (∀ listed, Preorder h .root listed ↔ listed = paths) ∧
        ∃ (cost : Nat) (visits : List Visit), (∀ fuel, cost ≤ fuel → h.walk? fuel = some visits) ∧
          ∀ accept, Visit.paths visits accept = paths.filter accept) ∧
    ∀ t : NodeTree, t.Built → t.Small → Unfolds t.view .root := by
  refine ⟨fun h hunfolds => ?_, fun t hbuilt hsmall => hbuilt.unfolds hsmall⟩
  obtain ⟨paths, hpaths⟩ := hunfolds.exists_preorder
  refine ⟨paths, fun listed => ⟨hpaths.unique, ?_⟩, hpaths.exists_visits⟩
  rintro rfl
  exact hpaths

theorem walk_preorder_nested :
    let inner := ((ofRoot (some ⟨"sub"⟩)).addItem .root (some ⟨"sub/x"⟩)).1
    let outer := (((ofRoot (some ⟨"root"⟩)).addNested .root inner.view).1.addItem .root (some ⟨"last"⟩)).1
    outer.Built ∧ outer.Small ∧
      (∃ paths, (∀ listed, Preorder outer.view .root listed ↔ listed = paths) ∧
        ∃ (cost : Nat) (visits : List Visit), (∀ fuel, cost ≤ fuel → outer.view.walk? fuel = some visits) ∧
          ∀ accept, Visit.paths visits accept = paths.filter accept) ∧
      (outer.view.walk? 5).map (fun visits => (Visit.paths visits fun _ => true).map (·.text)) =
        some ["root", "sub", "sub/x", "last"] := by
  intro inner outer
  have hinner : inner.Built := .addItem .root (some ⟨"sub/x"⟩) (.ofRoot (some ⟨"sub"⟩))
  have houter : outer.Built :=
    .addItem .root (some ⟨"last"⟩) (.addNested .root (.ofRoot (some ⟨"root"⟩)) hinner (by decide))
  have hsmall : outer.Small := by decide
  exact ⟨houter, hsmall, walk_preorder.1 _ (walk_preorder.2 outer houter hsmall), by decide +kernel⟩

end SourceModel.NodeTree
