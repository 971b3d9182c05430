import SourceModel.Proofs.Hierarchy.Walk
import Mathlib.Logic.Relation
/-!
# The links of a tree tell its history

A run adds items one by one, under whatever parents, and logs every call with
its answer. `Records` is the invariant: the items answered so far are numbered
in order, and the children that the links of an item lead to are the items the
log has under it. From this follows what the next call answers, and that every
link leads to a newer item, so that no chain of links leads back, while every
item is reached from the root.
-/

namespace SourceModel

namespace Hierarchy

/-- One item leads to another in a single step. -/
def Link (h : Hierarchy) (i j : ItemId) : Prop :=
  h.firstChild i = some j ∨ h.nextSibling i = some j

/-- Along a chain every item is reached from the first. -/
theorem Siblings.reaches {h : Hierarchy} {start : Option ItemId} {items : List ItemId} (hs : Siblings h start items)
    {j : ItemId} (hj : j ∈ items) : ∃ first, start = some first ∧ Relation.ReflTransGen (Link h) first j := by
  induction hs with
  | none => cases hj
  | nil => cases hj
  | @item i items hne _ ih =>
    refine ⟨i, rfl, ?_⟩
    rcases List.mem_cons.1 hj with rfl | hj
    · exact .refl
    · obtain ⟨next, hnext, hreach⟩ := ih hj
      exact .head (.inr hnext) hreach

end Hierarchy

namespace NodeTree

open Hierarchy (Siblings Link)

/-! ## Runs of additions -/

/-- A call that adds an item. -/
inductive Addition where
  | item (parent : ItemId) (path : Option Path)
  | nested (parent : ItemId) (inner : Hierarchy)

namespace Addition

def parent : Addition → ItemId
  | .item parent _ => parent
  | .nested parent _ => parent

/-- The node it adds, not yet linked to any other. -/
def node : Addition → Node
  | .item _ path => { path }
  | .nested _ inner => { nested := some inner }

end Addition

def add (t : NodeTree) : Addition → NodeTree × Option ItemId
  | .item parent path => t.addItem parent path
  | .nested parent inner => t.addNested parent inner

theorem add_eq (t : NodeTree) (a : Addition) : t.add a = t.push a.parent a.node := by
  cases a <;> rfl

/-- Calls with their answers, in order. -/
abbrev Log := List (Addition × Option ItemId)

namespace Log

/-- The items that were added. -/
def added (log : Log) : List ItemId :=
  log.filterMap Prod.snd

/-- The items that were added under `p`. -/
def addedUnder (log : Log) (p : ItemId) : List ItemId :=
  log.filterMap fun call => if call.1.parent = p then call.2 else none

theorem added_append (log log' : Log) : added (log ++ log') = added log ++ added log' :=
  List.filterMap_append

theorem addedUnder_append (log log' : Log) (p : ItemId) :
    addedUnder (log ++ log') p = addedUnder log p ++ addedUnder log' p :=
  List.filterMap_append

theorem mem_added_of_under {log : Log} {p c : ItemId} (h : c ∈ addedUnder log p) : c ∈ added log := by
  obtain ⟨call, hcall, hanswer⟩ := List.mem_filterMap.1 h
  split at hanswer
  · exact List.mem_filterMap.2 ⟨call, hcall, hanswer⟩
  · cases hanswer

/-- An item that was added once is listed under one parent. -/
theorem mem_addedUnder_iff {before after : Log} {a : Addition} {c : ItemId}
    (h : (added (before ++ (a, some c) :: after)).Nodup) (q : ItemId) :
    c ∈ addedUnder (before ++ (a, some c) :: after) q ↔ q = a.parent := by
  rw [added_append] at h
  obtain ⟨-, hafter, hdisjoint⟩ := List.nodup_append.1 h
  have hnew : c ∈ added ((a, some c) :: after) := List.mem_cons_self
  have hbefore : c ∉ addedUnder before q := fun hc => hdisjoint c (mem_added_of_under hc) c hnew rfl
  have hlater : c ∉ addedUnder after q := fun hc => (List.nodup_cons.1 hafter).1 (mem_added_of_under hc)
  rw [addedUnder_append, List.mem_append, or_iff_right hbefore]
  by_cases hq : a.parent = q
  · simp [addedUnder, hq]
  · simpa [addedUnder, hq, Ne.symm hq] using hlater

end Log

/-- The tree and the log after some calls on a tree that held only a root. -/
inductive Run (path : Option Path) : NodeTree → Log → Prop
  | start : Run path (.ofRoot path) []
  | add {t : NodeTree} {log : Log} (a : Addition) : Run path t log →
      Run path (t.add a).1 (log ++ [(a, (t.add a).2)])

/-! ## Items and their ids -/

theorem index?_eq_some_iff {t : NodeTree} (hpos : 0 < t.size) (hsmall : t.Small) {item : ItemId} {i : Nat} :
    t.index? item = some i ↔ i < t.size ∧ item = idAt i := by
  constructor
  · intro h
    refine ⟨index?_lt hpos h, ?_⟩
    unfold index? at h
    split at h
    · cases h
      assumption
    · split at h
      · cases h
      · rename_i hreserved
        split at h
        · cases h
          have hnumber : item.number.toNat ≠ 0 := by
            intro h0
            exact hreserved (.inr (UInt32.toNat_inj.1 h0))
          rw [idAt, if_neg hnumber, UInt32.ofNat_toNat]
        · cases h
  · rintro ⟨hi, rfl⟩
    exact index?_idAt hi (hsmall.lt hi)

/-- Items at different indices have different ids. -/
theorem idAt_inj {t : NodeTree} (hsmall : t.Small) {i j : Nat} (hi : i < t.size) (hj : j < t.size)
    (h : idAt i = idAt j) : i = j := by
  have hindex := index?_idAt hi (hsmall.lt hi)
  rw [h, index?_idAt hj (hsmall.lt hj)] at hindex
  exact (Option.some.inj hindex).symm

/-- What is said of all items but the root is said of one more behind them. -/
theorem map_range_size {α : Type} (f : Nat → α) {n : Nat} (hpos : 0 < n) :
    (List.range' 1 (n + 1 - 1)).map f = (List.range' 1 (n - 1)).map f ++ [f n] := by
  rw [show n + 1 - 1 = (n - 1) + 1 by omega, List.range'_1_concat, List.map_append, show 1 + (n - 1) = n by omega]
  rfl

/-- One more item adds one id. -/
theorem index?_of_size_succ {t t' : NodeTree} (hpos : 0 < t.size) (hsize : t'.size = t.size + 1) (hsmall : t'.Small)
    (item : ItemId) : t'.index? item = if item = idAt t.size then some t.size else t.index? item := by
  have hsmall₀ : t.Small := by
    unfold Small at hsmall ⊢
    omega
  split
  next hnew => exact (index?_eq_some_iff (by omega) hsmall).2 ⟨by omega, hnew⟩
  next hold =>
    refine Option.ext fun i => ?_
    rw [index?_eq_some_iff (by omega) hsmall, index?_eq_some_iff hpos hsmall₀]
    refine and_congr_left ?_
    rintro rfl
    have hne : i ≠ t.size := by
      rintro rfl
      exact hold rfl
    omega

/-! ## What a call does -/

/-- A call finds no parent and changes nothing, or it finds one and answers with
the number of items. -/
theorem Linked.add_cases {t : NodeTree} {parent : Nat → Nat} (hlinked : Linked t parent) (hsmall : t.Small)
    (a : Addition) :
    t.index? a.parent = none ∧ t.add a = (t, none) ∨
      ∃ p t', t.index? a.parent = some p ∧ t.add a = (t', some ⟨UInt32.ofNat t.size⟩) ∧ t'.size = t.size + 1 := by
  rw [add_eq]
  cases hparent : t.index? a.parent with
  | none =>
    refine .inl ⟨rfl, ?_⟩
    rw [NodeTree.push, hparent]
  | some p =>
    have hp := index?_lt hlinked.nonempty hparent
    have hpnode : t.nodes[p]? = some t.nodes[p] := Array.getElem?_eq_getElem hp
    have hsize : t.size ≤ 0xFFFFFFFE := by
      unfold Small at hsmall
      omega
    obtain ⟨t', hpush, hsize', -⟩ := nodes_push a.node hparent hpnode (hlinked.lastChild p _ hpnode)
      (fun l hl => (mem_childrenOf.1 (List.mem_of_getLast? hl)).1) hsize
    exact .inr ⟨p, t', rfl, hpush, hsize'⟩

/-- The root never gets a sibling: only a child is the last of a parent's. -/
theorem Linked.nextSibling_root {t : NodeTree} {parent : Nat → Nat} (hlinked : Linked t parent) {item : ItemId}
    {p : Nat} (node : Node) (hparent : t.index? item = some p) (hsize : t.size ≤ 0xFFFFFFFE)
    (hroot : ∀ root, t.nodes[0]? = some root → root.nextSibling = none) :
    ∀ root, (t.push item node).1.nodes[0]? = some root → root.nextSibling = none := by
  intro root h
  have hp := index?_lt hlinked.nonempty hparent
  have hpnode : t.nodes[p]? = some t.nodes[p] := Array.getElem?_eq_getElem hp
  obtain ⟨t', hpush, -, hnodes⟩ := nodes_push node hparent hpnode (hlinked.lastChild p _ hpnode)
    (fun l hl => (mem_childrenOf.1 (List.mem_of_getLast? hl)).1) hsize
  rw [hpush, hnodes, if_neg (Nat.ne_of_lt hlinked.nonempty)] at h
  obtain ⟨old, hold, rfl⟩ := Option.map_eq_some_iff.1 h
  have hlast : (childrenOf parent t.size p).getLast? ≠ some 0 := by
    intro hlast
    exact Nat.lt_irrefl 0 (mem_childrenOf.1 (List.mem_of_getLast? hlast)).2.1
  rw [relink, if_neg hlast]
  exact hroot old hold

/-! ## The log and the links -/

/-- The log says which items there are, and under which of them each was added. -/
structure Records (log : Log) (t : NodeTree) (parent : Nat → Nat) : Prop where
  linked : Linked t parent
  root : ∀ root, t.nodes[0]? = some root → root.nextSibling = none
  added : log.added = (List.range' 1 (t.size - 1)).map idAt
  under : ∀ p, log.addedUnder p = (t.index? p).elim [] fun i => (childrenOf parent t.size i).map idAt

theorem Records.refused {log : Log} {t : NodeTree} {parent : Nat → Nat} (h : Records log t parent) (a : Addition) :
    Records (log ++ [(a, none)]) t parent where
  linked := h.linked
  root := h.root
  added := by rw [Log.added_append, h.added]; simp [Log.added]
  under p := by rw [Log.addedUnder_append, h.under]; simp [Log.addedUnder]

theorem Records.added_item {log : Log} {t : NodeTree} {parent : Nat → Nat} (h : Records log t parent) {a : Addition}
    {p : Nat} (hparent : t.index? a.parent = some p) (hsize : t.size < 0xFFFFFFFE) :
    Records (log ++ [(a, some (idAt t.size))]) (t.add a).1 (Function.update parent t.size p) := by
  have hpos := h.linked.nonempty
  have hnode : a.node.firstChild = none ∧ a.node.lastChild = none ∧ a.node.nextSibling = none := by
    cases a <;> exact ⟨rfl, rfl, rfl⟩
  obtain ⟨t', last, hpush, hsize', -, hlinked⟩ :=
    h.linked.push a.node hnode.1 hnode.2.1 hnode.2.2 hparent hsize
  have hroot := h.linked.nextSibling_root a.node hparent (Nat.le_of_lt hsize) h.root
  rw [add_eq]
  rw [hpush] at hroot ⊢
  have hsmall : t.Small := by
    unfold Small
    omega
  have hsmall' : t'.Small := by
    unfold Small
    omega
  refine ⟨hlinked, hroot, ?_, fun q => ?_⟩
  · rw [Log.added_append, h.added, hsize', map_range_size _ hpos]
    rfl
  · rw [Log.addedUnder_append, h.under, hsize']
    have hone : Log.addedUnder [(a, some (idAt t.size))] q = if a.parent = q then [idAt t.size] else [] := by
      by_cases hq : a.parent = q <;> simp [Log.addedUnder, hq]
    obtain ⟨hp, hparentId⟩ := (index?_eq_some_iff hpos hsmall).1 hparent
    rw [hone, index?_of_size_succ hpos hsize' hsmall', hparentId]
    by_cases hq : q = idAt t.size
    · -- The new item has no children yet.
      subst hq
      have hne : idAt p ≠ idAt t.size := fun hid => hp.ne (idAt_inj hsmall' (by omega) (by omega) hid)
      have hnone : t.index? (idAt t.size) = none := by
        refine Option.eq_none_iff_forall_ne_some.2 fun i hi => ?_
        obtain ⟨hlt, hid⟩ := (index?_eq_some_iff hpos hsmall).1 hi
        exact hlt.ne' (idAt_inj hsmall' (by omega) (by omega) hid)
      rw [if_pos rfl, if_neg hne, hnone, Option.elim_some, Option.elim_none,
        childrenOf_update parent hpos, h.linked.childrenOf_size, if_neg hp.ne']
      rfl
    · rw [if_neg hq]
      cases hold : t.index? q with
      | none =>
        have hne : idAt p ≠ q := by
          rintro rfl
          rw [index?_idAt hp (hsmall.lt hp)] at hold
          cases hold
        rw [if_neg hne]
        rfl
      | some i =>
        -- An item that was there keeps its children, and the parent gets the new one.
        obtain ⟨hi, rfl⟩ := (index?_eq_some_iff hpos hsmall).1 hold
        rw [Option.elim_some, Option.elim_some, childrenOf_update parent hpos, List.map_append]
        by_cases hip : i = p
        · rw [if_pos (by rw [hip]), if_pos hip]
          rfl
        · rw [if_neg fun hid => hip (idAt_inj hsmall hp hi hid).symm, if_neg hip]
          rfl

theorem records_start (path : Option Path) : ∃ parent, Records [] (ofRoot path) parent := by
  obtain ⟨parent, hlinked⟩ := (sound_ofRoot path).linked
  refine ⟨parent, hlinked, ?_, rfl, fun p => ?_⟩
  · intro root h
    cases h
    rfl
  · have hnone : ∀ i, childrenOf parent (ofRoot path).size i = [] := by
      intro i
      simp [childrenOf, ofRoot, size]
    cases (ofRoot path).index? p <;> simp [Log.addedUnder, hnone]

/-- A log tells the tree of a run. -/
theorem Run.records {path : Option Path} {t : NodeTree} {log : Log} (hrun : Run path t log) (hsmall : t.Small) :
    ∃ parent, Records log t parent := by
  induction hrun with
  | start => exact records_start path
  | @add t log a _ ih =>
    obtain ⟨parent, h⟩ := ih (small_of_push (by rwa [add_eq] at hsmall))
    have hbefore : t.Small := small_of_push (by rwa [add_eq] at hsmall)
    rcases h.linked.add_cases hbefore a with ⟨-, hadd⟩ | ⟨p, t', hp, hadd, hsize'⟩
    · rw [hadd]
      exact ⟨parent, h.refused a⟩
    · have hsize : t.size < 0xFFFFFFFE := by
        simp only [hadd, Small, hsize'] at hsmall
        omega
      have hnext := h.added_item hp hsize
      rw [hadd] at hnext ⊢
      rw [idAt_size h.linked.nonempty]
      exact ⟨_, hnext⟩

section Facts
variable {log : Log} {t : NodeTree} {parent : Nat → Nat} (h : Records log t parent)
include h

theorem Records.mem_added {c : ItemId} : c ∈ log.added ↔ ∃ i, 0 < i ∧ i < t.size ∧ c = idAt i := by
  have hpos := h.linked.nonempty
  rw [h.added, List.mem_map]
  constructor
  · rintro ⟨i, hi, rfl⟩
    rw [List.mem_range'_1] at hi
    exact ⟨i, by omega, by omega, rfl⟩
  · rintro ⟨i, hi, hlt, rfl⟩
    exact ⟨i, List.mem_range'_1.2 (by omega), rfl⟩

theorem Records.nodup (hsmall : t.Small) : log.added.Nodup := by
  rw [h.added]
  refine List.Nodup.map_on ?_ List.nodup_range'
  intro i hi j hj
  rw [List.mem_range'_1] at hi hj
  exact idAt_inj hsmall (by omega) (by omega)

/-- An id stands for an item when it is the root's or was answered. -/
theorem Records.index?_eq_none_iff (hsmall : t.Small) {item : ItemId} :
    t.index? item = none ↔ item ≠ .root ∧ item ∉ log.added := by
  have hpos := h.linked.nonempty
  constructor
  · intro hnone
    constructor
    · rintro rfl
      have hroot : t.index? .root = some 0 := (index?_eq_some_iff hpos hsmall).2 ⟨hpos, rfl⟩
      rw [hroot] at hnone
      cases hnone
    · intro hmem
      obtain ⟨i, -, hi, rfl⟩ := h.mem_added.1 hmem
      rw [(index?_eq_some_iff hpos hsmall).2 ⟨hi, rfl⟩] at hnone
      cases hnone
  · rintro ⟨hroot, hadded⟩
    cases hindex : t.index? item with
    | none => rfl
    | some i =>
      obtain ⟨hi, rfl⟩ := (index?_eq_some_iff hpos hsmall).1 hindex
      by_cases h0 : i = 0
      · subst h0
        exact absurd rfl hroot
      · exact absurd (h.mem_added.2 ⟨i, by omega, hi, rfl⟩) hadded

/-- The links of an item list what the log has under it. -/
theorem Records.siblings (hsmall : t.Small) (p : ItemId) :
    Siblings t.view (t.view.firstChild p) (log.addedUnder p) := by
  rw [h.under]
  cases hindex : t.index? p with
  | none =>
    have hfirst : t.view.firstChild p = none := by
      change (t.node? p).bind (·.firstChild) = none
      rw [node?, hindex]
      rfl
    rw [hfirst]
    exact .none
  | some i =>
    obtain ⟨hi, rfl⟩ := (index?_eq_some_iff h.linked.nonempty hsmall).1 hindex
    have hnode : t.nodes[i]? = some t.nodes[i] := Array.getElem?_eq_getElem hi
    have hfirst : t.view.firstChild (idAt i) = (childrenOf parent t.size i).head?.map idAt := by
      change (t.node? (idAt i)).bind (·.firstChild) = _
      rw [node?_idAt hi (hsmall.lt hi), hnode]
      exact h.linked.firstChild i _ hnode
    rw [hfirst]
    exact h.linked.siblings hsmall [] _ rfl

/-- A link leads from an item to a newer one. -/
theorem Records.link_lt (hsmall : t.Small) {x y : ItemId} (hlink : Link t.view x y) :
    ∃ i j, t.index? x = some i ∧ t.index? y = some j ∧ i < j := by
  have hpos := h.linked.nonempty
  cases hindex : t.index? x with
  | none => simp [Link, view, Hierarchy.firstChild, Hierarchy.nextSibling, node?, hindex] at hlink
  | some i =>
    obtain ⟨hi, rfl⟩ := (index?_eq_some_iff hpos hsmall).1 hindex
    have hnode : t.nodes[i]? = some t.nodes[i] := Array.getElem?_eq_getElem hi
    have hfound : t.node? (idAt i) = some t.nodes[i] := by rw [node?_idAt hi (hsmall.lt hi), hnode]
    rcases hlink with hfirst | hnext
    · change (t.node? (idAt i)).bind (·.firstChild) = some y at hfirst
      rw [hfound, Option.bind_some, h.linked.firstChild i _ hnode] at hfirst
      obtain ⟨j, hj, rfl⟩ := Option.map_eq_some_iff.1 hfirst
      obtain ⟨hlt, hjpos, rfl⟩ := mem_childrenOf.1 (List.mem_of_mem_head? hj)
      exact ⟨_, j, rfl, index?_idAt hlt (hsmall.lt hlt), h.linked.parent_lt j hjpos hlt⟩
    · change (t.node? (idAt i)).bind (·.nextSibling) = some y at hnext
      rw [hfound, Option.bind_some] at hnext
      by_cases h0 : i = 0
      · subst h0
        rw [h.root _ hnode] at hnext
        cases hnext
      · -- Every other item is a child of its parent, and its neighbour is newer.
        have hmem : i ∈ childrenOf parent t.size (parent i) := mem_childrenOf.2 ⟨hi, by omega, rfl⟩
        obtain ⟨before, after, hsplit⟩ := List.append_of_mem hmem
        rw [h.linked.nextSibling _ before i after _ hsplit hnode] at hnext
        obtain ⟨j, hj, rfl⟩ := Option.map_eq_some_iff.1 hnext
        have hjmem := List.mem_of_mem_head? hj
        have hjchild : j ∈ childrenOf parent t.size (parent i) := by
          rw [hsplit]
          simp [hjmem]
        have hlt := (mem_childrenOf.1 hjchild).1
        exact ⟨i, j, rfl, index?_idAt hlt (hsmall.lt hlt), lt_of_childrenOf hsplit hjmem⟩

theorem Records.transGen_lt (hsmall : t.Small) {x y : ItemId} (hchain : Relation.TransGen (Link t.view) x y) :
    ∃ i j, t.index? x = some i ∧ t.index? y = some j ∧ i < j := by
  induction hchain with
  | single hlink => exact h.link_lt hsmall hlink
  | tail _ hlink ih =>
    obtain ⟨i, j, hi, hj, hij⟩ := ih
    obtain ⟨j', k, hj', hk, hjk⟩ := h.link_lt hsmall hlink
    rw [hj, Option.some.injEq] at hj'
    exact ⟨i, k, hi, hk, by omega⟩

/-- Every item is reached from the root: its parent is, and leads to its first
child and on along the chain. -/
theorem Records.reaches (hsmall : t.Small) {i : Nat} (hi : i < t.size) :
    Relation.ReflTransGen (Link t.view) .root (idAt i) := by
  induction i using Nat.strongRecOn with
  | ind i ih =>
    by_cases h0 : i = 0
    · subst h0
      exact .refl
    · have hparent := h.linked.parent_lt i (by omega) hi
      have hlisted : idAt i ∈ log.addedUnder (idAt (parent i)) := by
        rw [h.under, index?_idAt (Nat.lt_trans hparent hi) (hsmall.lt (Nat.lt_trans hparent hi)), Option.elim_some]
        exact List.mem_map_of_mem (mem_childrenOf.2 ⟨hi, by omega, rfl⟩)
      obtain ⟨first, hfirst, hchain⟩ := (h.siblings hsmall (idAt (parent i))).reaches hlisted
      exact (ih (parent i) hparent (Nat.lt_trans hparent hi)).trans (.head (.inl hfirst) hchain)

end Facts

/-- The call that added an item named the root or an item added before. -/
theorem Run.exists_call {path : Option Path} {t : NodeTree} {log : Log} (hrun : Run path t log) (hsmall : t.Small)
    {c : ItemId} (hc : c ∈ log.added) :
    ∃ before a after, log = before ++ (a, some c) :: after ∧
      (a.parent = .root ∨ a.parent ∈ Log.added before) := by
  induction hrun with
  | start => cases hc
  | @add t log a hrun ih =>
    have hbefore : t.Small := small_of_push (by rwa [add_eq] at hsmall)
    rw [Log.added_append, List.mem_append] at hc
    rcases hc with hc | hc
    · obtain ⟨before, a', after, rfl, hparent⟩ := ih hbefore hc
      exact ⟨before, a', after ++ [(a, (t.add a).2)], by simp, hparent⟩
    · obtain ⟨parent, h⟩ := hrun.records hbefore
      rcases h.linked.add_cases hbefore a with ⟨-, hadd⟩ | ⟨p, t', hp, hadd, -⟩
      · rw [hadd] at hc
        cases hc
      · rw [hadd] at hc ⊢
        obtain rfl : c = _ := List.mem_singleton.1 hc
        refine ⟨log, a, [], rfl, ?_⟩
        by_contra hnot
        rw [not_or] at hnot
        rw [(h.index?_eq_none_iff hbefore).2 hnot] at hp
        cases hp

/-- After any calls that leave the tree small enough for its ids, the next call
is refused exactly when its parent is neither the root nor an item answered
before, and then changes nothing; otherwise it answers with the number of
items. The links from any item list the items added under it, in order. Each
item is in one such list, that of a parent that was there before it; it is
reached from the root, and no chain of links leads back to where it began. -/
theorem links_of_run {path : Option Path} {t : NodeTree} {log : Log} (hrun : Run path t log) (hsmall : t.Small) :
    (∀ a : Addition,
      ((t.add a).2 = none ↔ a.parent ≠ .root ∧ a.parent ∉ log.added) ∧
      ((t.add a).2 = none → (t.add a).1 = t) ∧
      ∀ id, (t.add a).2 = some id → id.number.toNat = t.size) ∧
    t.size = log.added.length + 1 ∧
    (∀ p, Siblings t.view (t.view.firstChild p) (log.addedUnder p)) ∧
    (∀ c ∈ log.added, ∃ before a after, log = before ++ (a, some c) :: after ∧
      (a.parent = .root ∨ a.parent ∈ Log.added before) ∧ ∀ q, c ∈ log.addedUnder q ↔ q = a.parent) ∧
    (∀ c ∈ log.added, Relation.ReflTransGen (Link t.view) .root c) ∧
    ∀ c, ¬ Relation.TransGen (Link t.view) c c := by
  obtain ⟨parent, h⟩ := hrun.records hsmall
  refine ⟨fun a => ?_, ?_, h.siblings hsmall, fun c hc => ?_, fun c hc => ?_, fun c hchain => ?_⟩
  · rw [← h.index?_eq_none_iff hsmall]
    rcases h.linked.add_cases hsmall a with ⟨hnone, hadd⟩ | ⟨p, t', hp, hadd, -⟩
    · simp [hnone, hadd]
    · simp only [hp, hadd, reduceCtorEq, false_implies, Option.some.injEq, true_and]
      rintro id rfl
      unfold Small at hsmall
      exact UInt32.toNat_ofNat_of_lt' (by rw [UInt32.size]; omega)
  · have hpos := h.linked.nonempty
    rw [h.added, List.length_map, List.length_range']
    omega
  · obtain ⟨before, a, after, rfl, hparent⟩ := hrun.exists_call hsmall hc
    exact ⟨before, a, after, rfl, hparent, Log.mem_addedUnder_iff (h.nodup hsmall)⟩
  · obtain ⟨i, -, hi, rfl⟩ := h.mem_added.1 hc
    exact h.reaches hsmall hi
  · obtain ⟨i, j, hi, hj, hlt⟩ := h.transGen_lt hsmall hchain
    rw [hi, Option.some.injEq] at hj
    omega

/-- Two items under the root, one under the first of them, and a call that is
refused because its parent comes too late. -/
theorem links_of_run_late :
    let first := (ofRoot none).add (.item .root (some ⟨"a"⟩))
    let late := first.1.add (.item ⟨2⟩ none)
    let second := late.1.add (.nested .root (ofRoot none).view)
    let below := second.1.add (.item ⟨1⟩ (some ⟨"a/x"⟩))
    let log : Log := [(.item .root (some ⟨"a"⟩), first.2), (.item ⟨2⟩ none, late.2),
      (.nested .root (ofRoot none).view, second.2), (.item ⟨1⟩ (some ⟨"a/x"⟩), below.2)]
    Run none below.1 log ∧ below.1.Small ∧ late.2 = none ∧ log.addedUnder .root = [⟨1⟩, ⟨2⟩] ∧
      Siblings below.1.view (below.1.view.firstChild .root) [⟨1⟩, ⟨2⟩] ∧
      ∀ c, ¬ Relation.TransGen (Link below.1.view) c c := by
  intro first late second below log
  have hrun : Run none below.1 log := .add _ (.add _ (.add _ (.add _ .start)))
  have hsmall : below.1.Small := by decide
  obtain ⟨-, -, hsiblings, -, -, hacyclic⟩ := links_of_run hrun hsmall
  exact ⟨hrun, hsmall, by decide, by decide, hsiblings .root, hacyclic⟩

end NodeTree

end SourceModel
