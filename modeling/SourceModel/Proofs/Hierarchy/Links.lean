import SourceModel.Hierarchy.NodeTree
import SourceModel.Proofs.Hierarchy.Preorder
import Mathlib.Data.List.Range
import Mathlib.Logic.Function.Basic
/-!
# The links of a node tree

Every item of a node tree but the root has a parent that was there before it.
`Linked` says that the links of a tree follow from the parents: the first and
the last child of an item are the ends of the list of its children, and the
next sibling of a child is its neighbour in that list. Adding an item keeps
this, so the links of a tree never lead back and the tree unfolds to the end.
-/

namespace SourceModel.NodeTree

/-- The id of the item at an index. -/
def idAt (i : Nat) : ItemId :=
  if i = 0 then .root else ⟨UInt32.ofNat i⟩

/-- The tree holds fewer than 2^32 - 2 items besides its root, so none of their
numbers is a reserved one. -/
def Small (t : NodeTree) : Prop :=
  t.size - 1 < 0xFFFFFFFE

instance (t : NodeTree) : Decidable t.Small :=
  inferInstanceAs (Decidable (t.size - 1 < 0xFFFFFFFE))

/-- The items under `p` in the order in which they were added, given the parent
of each of `size` items. -/
def childrenOf (parent : Nat → Nat) (size p : Nat) : List Nat :=
  (List.range size).filter fun c => 0 < c ∧ parent c = p

/-- The links of the tree are those of these parents. -/
structure Linked (t : NodeTree) (parent : Nat → Nat) : Prop where
  nonempty : 0 < t.size
  parent_lt : ∀ c, 0 < c → c < t.size → parent c < c
  firstChild : ∀ p node, t.nodes[p]? = some node →
    node.firstChild = (childrenOf parent t.size p).head?.map idAt
  lastChild : ∀ p node, t.nodes[p]? = some node →
    node.lastChild = (childrenOf parent t.size p).getLast?.map idAt
  nextSibling : ∀ p before c after node, childrenOf parent t.size p = before ++ c :: after →
    t.nodes[c]? = some node → node.nextSibling = after.head?.map idAt

/-! ## Ids and indices -/

theorem idAt_ne_nil {i : Nat} (hi : i < 0xFFFFFFFE) : idAt i ≠ .nil := by
  unfold idAt
  split
  · decide
  · intro h
    have hnumber := congrArg (·.number.toNat) h
    simp only [ItemId.nil, UInt32.toNat_ofNat', UInt32.reduceToNat] at hnumber
    omega

theorem index?_idAt {t : NodeTree} {i : Nat} (hi : i < t.size) (hlimit : i < 0xFFFFFFFE) :
    t.index? (idAt i) = some i := by
  by_cases h0 : i = 0
  · simp [idAt, index?, h0]
  · have hnumber : (UInt32.ofNat i).toNat = i := by
      rw [UInt32.toNat_ofNat']
      omega
    have hroot : (⟨UInt32.ofNat i⟩ : ItemId) ≠ .root := by
      intro h
      have h := congrArg (·.number.toNat) h
      simp only [ItemId.root, hnumber, UInt32.reduceToNat] at h
      omega
    have hnil : (⟨UInt32.ofNat i⟩ : ItemId) ≠ .nil := by
      simpa [idAt, h0] using idAt_ne_nil hlimit
    have hzero : UInt32.ofNat i ≠ 0 := by
      intro h
      rw [h] at hnumber
      exact h0 hnumber.symm
    simp [idAt, index?, h0, hroot, hnil, hzero, hnumber, hi]

theorem index?_lt {t : NodeTree} {item : ItemId} {i : Nat} (hpos : 0 < t.size) (h : t.index? item = some i) :
    i < t.size := by
  unfold index? at h
  split at h
  · cases h
    exact hpos
  · split at h
    · cases h
    · split at h
      · cases h
        assumption
      · cases h

theorem node?_idAt {t : NodeTree} {i : Nat} (hi : i < t.size) (hlimit : i < 0xFFFFFFFE) :
    t.node? (idAt i) = t.nodes[i]? := by
  rw [node?, index?_idAt hi hlimit]
  rfl

/-! ## Children -/

theorem mem_childrenOf {parent : Nat → Nat} {size p c : Nat} :
    c ∈ childrenOf parent size p ↔ c < size ∧ 0 < c ∧ parent c = p := by
  simp [childrenOf]

theorem pairwise_childrenOf (parent : Nat → Nat) (size p : Nat) : (childrenOf parent size p).Pairwise (· < ·) :=
  List.pairwise_lt_range.filter _

/-- The children after a child are newer. -/
theorem lt_of_childrenOf {parent : Nat → Nat} {size p c d : Nat} {before after : List Nat}
    (hsplit : childrenOf parent size p = before ++ c :: after) (hd : d ∈ after) : c < d := by
  have hpairwise := hsplit ▸ pairwise_childrenOf parent size p
  exact List.rel_of_pairwise_cons (List.pairwise_append.1 hpairwise).2.1 hd

/-- No child comes behind the newest item of all. -/
theorem newest_is_last {parent : Nat → Nat} {size p : Nat} {before after : List Nat}
    (hsplit : childrenOf parent (size + 1) p = before ++ size :: after) : after = [] := by
  refine List.eq_nil_iff_forall_not_mem.2 fun d hd => ?_
  have hmem : d ∈ before ++ size :: after := by simp [hd]
  have hlt := lt_of_childrenOf hsplit hd
  have := (mem_childrenOf.1 (hsplit ▸ hmem)).1
  omega

/-- A new item is the last child of its parent and changes no other list. -/
theorem childrenOf_update (parent : Nat → Nat) {size : Nat} (hpos : 0 < size) (p q : Nat) :
    childrenOf (Function.update parent size p) (size + 1) q =
      childrenOf parent size q ++ if q = p then [size] else [] := by
  have hold : ∀ c ∈ List.range size, decide (0 < c ∧ Function.update parent size p c = q) =
      decide (0 < c ∧ parent c = q) := by
    intro c hc
    rw [Function.update_of_ne (Nat.ne_of_lt (List.mem_range.1 hc))]
  rw [childrenOf, List.range_succ, List.filter_append, List.filter_congr hold, childrenOf]
  by_cases hq : q = p
  · simp [hq, hpos]
  · simp [hq, Ne.symm hq]

/-! ## Adding an item -/

/-- What adding the item `id` under index `p`, behind index `last` if any, makes
of the node at index `i`. -/
def relink (p : Nat) (last : Option Nat) (id : ItemId) (i : Nat) (node : Node) : Node :=
  { node with
    firstChild := if p = i ∧ last = none then some id else node.firstChild
    lastChild := if p = i then some id else node.lastChild
    nextSibling := if last = some i then some id else node.nextSibling }

/-- Under a parent that exists a node is added while there are numbers left, and
the parent and its last child are linked to it. -/
theorem nodes_push_of_index {t : NodeTree} {parent : ItemId} {p : Nat} (node : Node) {pnode : Node} {last : Option Nat}
    (hparent : t.index? parent = some p) (hp : t.nodes[p]? = some pnode)
    (hlast : pnode.lastChild.map (NodeTree.index? ⟨t.nodes.push node⟩) = last.map some)
    (hlt : ∀ l, last = some l → l < t.size) (hroom : t.size < UInt32.size) :
    ∃ t', t.push parent node = (t', some ⟨UInt32.ofNat t.size⟩) ∧ t'.size = t.size + 1 ∧
      ∀ i, t'.nodes[i]? =
        if i = t.size then some node else t.nodes[i]?.map (relink p last ⟨UInt32.ofNat t.size⟩ i) := by
  have hpsize : p < t.nodes.size := (Array.getElem?_eq_some_iff.1 hp).1
  have hgrown : (t.nodes.push node)[p]? = some pnode := by
    rw [Array.getElem?_push, if_neg (Nat.ne_of_lt hpsize), hp]
  unfold push
  simp only [hparent, hroom, if_true, hgrown, Option.bind_some]
  cases last with
  | none =>
    rw [Option.map_none, Option.map_eq_none_iff] at hlast
    simp only [hlast]
    refine ⟨_, rfl, by simp [update, size], fun i => ?_⟩
    simp only [update, size, Array.getElem?_modify, Array.getElem?_push]
    by_cases hi : i = t.nodes.size
    · subst hi
      simp [Nat.ne_of_lt hpsize]
    · cases t.nodes[i]? with
      | none => simp [hi]
      | some old => by_cases hip : p = i <;> simp [relink, hi, hip]
  | some l =>
    have hl : l < t.nodes.size := hlt l rfl
    obtain ⟨id, hid, hindex⟩ := Option.map_eq_some_iff.1 hlast
    simp only [hid, hindex]
    refine ⟨_, rfl, by simp [update, size], fun i => ?_⟩
    simp only [update, size, Array.getElem?_modify, Array.getElem?_push]
    by_cases hi : i = t.nodes.size
    · subst hi
      simp [Nat.ne_of_lt hpsize, Nat.ne_of_lt hl]
    · cases t.nodes[i]? with
      | none => simp [hi]
      | some old => by_cases hip : p = i <;> by_cases hil : l = i <;> simp [relink, hi, hip, hil]

theorem nodes_push {t : NodeTree} {parent : ItemId} {p : Nat} (node : Node) {pnode : Node} {last : Option Nat}
    (hparent : t.index? parent = some p) (hp : t.nodes[p]? = some pnode) (hlast : pnode.lastChild = last.map idAt)
    (hlt : ∀ l, last = some l → l < t.size) (hsize : t.size ≤ 0xFFFFFFFE) :
    ∃ t', t.push parent node = (t', some ⟨UInt32.ofNat t.size⟩) ∧ t'.size = t.size + 1 ∧
      ∀ i, t'.nodes[i]? =
        if i = t.size then some node else t.nodes[i]?.map (relink p last ⟨UInt32.ofNat t.size⟩ i) := by
  refine nodes_push_of_index node hparent hp ?_ hlt (by rw [UInt32.size]; omega)
  rw [hlast, Option.map_map]
  cases last with
  | none => rfl
  | some l =>
    have hl := hlt l rfl
    refine congrArg some (index?_idAt ?_ (Nat.lt_of_lt_of_le hl hsize))
    rw [size, Array.size_push]
    exact Nat.lt_succ_of_lt hl

theorem idAt_size {t : NodeTree} (hpos : 0 < t.size) : (⟨UInt32.ofNat t.size⟩ : ItemId) = idAt t.size := by
  rw [idAt, if_neg (Nat.ne_of_gt hpos)]

section Push
variable {t : NodeTree} {parent : Nat → Nat} (hlinked : Linked t parent)
include hlinked

/-- Nobody's parent is an item that is not there yet. -/
theorem Linked.childrenOf_size : childrenOf parent t.size t.size = [] := by
  refine List.filter_eq_nil_iff.2 fun c hc h => ?_
  have hlt := List.mem_range.1 hc
  obtain ⟨hpos, hparent⟩ := of_decide_eq_true h
  have := hlinked.parent_lt c hpos hlt
  omega

variable {q : Nat} {old : Node} (hold : t.nodes[q]? = some old) (p : Nat)
include hold

theorem Linked.firstChild_relink :
    (relink p (childrenOf parent t.size p).getLast? (idAt t.size) q old).firstChild =
      (childrenOf (Function.update parent t.size p) (t.size + 1) q).head?.map idAt := by
  rw [childrenOf_update parent hlinked.nonempty, List.head?_append, relink]
  simp only [hlinked.firstChild q old hold]
  by_cases hq : q = p
  · subst hq
    cases childrenOf parent t.size q <;> simp
  · simp [hq, Ne.symm hq]

theorem Linked.lastChild_relink :
    (relink p (childrenOf parent t.size p).getLast? (idAt t.size) q old).lastChild =
      (childrenOf (Function.update parent t.size p) (t.size + 1) q).getLast?.map idAt := by
  rw [childrenOf_update parent hlinked.nonempty, List.getLast?_append, relink]
  simp only [hlinked.lastChild q old hold]
  by_cases hq : q = p
  · simp [hq]
  · simp [hq, Ne.symm hq]

end Push

/-- The new item comes behind the last child of its parent; other neighbours
stay. -/
theorem Linked.nextSibling_relink {t : NodeTree} {parent : Nat → Nat} (hlinked : Linked t parent)
    {p q c : Nat} {before after : List Nat} {old : Node} (hold : t.nodes[c]? = some old)
    (hsplit : childrenOf (Function.update parent t.size p) (t.size + 1) q = before ++ c :: after) :
    (relink p (childrenOf parent t.size p).getLast? (idAt t.size) c old).nextSibling = after.head?.map idAt := by
  have hc : c < t.size := (Array.getElem?_eq_some_iff.1 hold).1
  rw [childrenOf_update parent hlinked.nonempty] at hsplit
  simp only [relink]
  by_cases hq : q = p
  · subst hq
    rw [if_pos rfl] at hsplit
    rcases List.eq_nil_or_concat after with rfl | ⟨after, last, rfl⟩
    · -- The new item itself would be an old one.
      have hnew := (List.append_inj' hsplit rfl).2
      simp only [List.cons.injEq, and_true] at hnew
      omega
    · rw [List.concat_eq_append, ← List.cons_append, ← List.append_assoc] at hsplit
      obtain ⟨hchildren, hnew⟩ := List.append_inj' hsplit rfl
      rw [hlinked.nextSibling q before c after old hchildren hold, List.concat_eq_append, ← hnew]
      cases after with
      | nil => simp [hchildren]
      | cons d after =>
        -- Only one child is the last.
        have hlast : (d :: after).getLast? ≠ some c := by
          intro hlast
          exact Nat.lt_irrefl _ (lt_of_childrenOf hchildren (List.mem_of_getLast? hlast))
        rw [hchildren, List.getLast?_append, List.getLast?_cons_cons, Option.or_of_isSome (by simp), if_neg hlast]
        rfl
  · rw [if_neg hq, List.append_nil] at hsplit
    have hmem : c ∈ childrenOf parent t.size q := hsplit ▸ by simp
    have hlast : (childrenOf parent t.size p).getLast? ≠ some c := by
      intro hlast
      have hparent := (mem_childrenOf.1 (List.mem_of_getLast? hlast)).2.2
      exact hq ((mem_childrenOf.1 hmem).2.2.symm.trans hparent)
    rw [if_neg hlast, hlinked.nextSibling q before c after old hsplit hold]

/-- Adding an item under a parent that exists keeps the links. -/
theorem Linked.push {t : NodeTree} {parent : Nat → Nat} (hlinked : Linked t parent) {item : ItemId} {p : Nat}
    (node : Node) (hfirst : node.firstChild = none) (hlast : node.lastChild = none)
    (hnext : node.nextSibling = none) (hparent : t.index? item = some p) (hsize : t.size < 0xFFFFFFFE) :
    ∃ t' last, t.push item node = (t', some (idAt t.size)) ∧ t'.size = t.size + 1 ∧
      (∀ i found, t'.nodes[i]? = some found → (i = t.size ∧ found = node) ∨
        ∃ old, t.nodes[i]? = some old ∧ found = relink p last (idAt t.size) i old) ∧
      Linked t' (Function.update parent t.size p) := by
  have hpos := hlinked.nonempty
  have hp := index?_lt hpos hparent
  obtain ⟨pnode, hpnode⟩ : ∃ pnode, t.nodes[p]? = some pnode := ⟨_, Array.getElem?_eq_getElem hp⟩
  obtain ⟨t', hpush, hsize', hnodes⟩ := nodes_push node hparent hpnode (hlinked.lastChild p pnode hpnode)
    (fun l hl => (mem_childrenOf.1 (List.mem_of_getLast? hl)).1) (Nat.le_of_lt hsize)
  rw [idAt_size hpos] at hpush hnodes
  have hfound : ∀ i found, t'.nodes[i]? = some found → (i = t.size ∧ found = node) ∨
      ∃ old, t.nodes[i]? = some old ∧
        found = relink p (childrenOf parent t.size p).getLast? (idAt t.size) i old := by
    intro i found h
    rw [hnodes] at h
    split at h
    · exact .inl ⟨‹_›, (Option.some.inj h).symm⟩
    · obtain ⟨old, hold, heq⟩ := Option.map_eq_some_iff.1 h
      exact .inr ⟨old, hold, heq.symm⟩
  have hchildren : childrenOf (Function.update parent t.size p) (t.size + 1) t.size = [] := by
    rw [childrenOf_update parent hpos, hlinked.childrenOf_size, if_neg (Nat.ne_of_gt hp)]
    rfl
  refine ⟨t', _, hpush, hsize', hfound, ?_, ?_, ?_, ?_, ?_⟩
  · rw [hsize']
    exact Nat.succ_pos _
  · intro c hc hclt
    rw [hsize'] at hclt
    by_cases hnew : c = t.size
    · rw [hnew, Function.update_self]
      exact hp
    · rw [Function.update_of_ne hnew]
      exact hlinked.parent_lt c hc (by omega)
  · intro q qnode hq
    rw [hsize']
    obtain ⟨rfl, rfl⟩ | ⟨old, hold, rfl⟩ := hfound q qnode hq
    · rw [hchildren, hfirst]
      rfl
    · exact hlinked.firstChild_relink hold p
  · intro q qnode hq
    rw [hsize']
    obtain ⟨rfl, rfl⟩ | ⟨old, hold, rfl⟩ := hfound q qnode hq
    · rw [hchildren, hlast]
      rfl
    · exact hlinked.lastChild_relink hold p
  · intro q before c after cnode hsplit hc
    rw [hsize'] at hsplit
    obtain ⟨rfl, rfl⟩ | ⟨old, hold, rfl⟩ := hfound c cnode hc
    · rw [newest_is_last hsplit, hnext]
      rfl
    · exact hlinked.nextSibling_relink hold hsplit

end SourceModel.NodeTree
