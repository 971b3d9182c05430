import SourceModel.Proofs.Hierarchy.Additions
/-!
# The numbers of added items

Items get the numbers from one on, in the order in which they are added, as long
as there are 32-bit words left. Two of these words are reserved, and adding does
not pass over them. `ids_of_run` says for every call of every run that its
answer is new, and that it leads to the item just added, unless the tree already
held all numbers below the root's: the next two answers are the root and the id
that stands for no item (`chain_answers_reserved`).
-/

namespace SourceModel

/-- What a node holds besides its links. -/
def Node.content (node : Node) : Option Path × Option Hierarchy :=
  (node.path, node.nested)

namespace NodeTree

/-- The id with this number, reserved or not. -/
def numbered (i : Nat) : ItemId :=
  ⟨UInt32.ofNat i⟩

/-- The nodes that calls added, as they were then. -/
def Log.addedNodes (log : Log) : List Node :=
  log.filterMap fun call => call.2.map fun _ => call.1.node

/-! ## Numbers and indices -/

theorem toNat_numbered {i : Nat} (hi : i < UInt32.size) : (numbered i).number.toNat = i :=
  UInt32.toNat_ofNat_of_lt' hi

theorem numbered_root : numbered 0xFFFFFFFE = .root := rfl

theorem numbered_nil : numbered 0xFFFFFFFF = .nil := rfl

theorem numbered_of_lt {i : Nat} (hpos : 0 < i) (hi : i < 0xFFFFFFFE) :
    numbered i = idAt i ∧ numbered i ≠ .root ∧ numbered i ≠ .nil := by
  have hid : numbered i = idAt i := by rw [idAt, if_neg (Nat.ne_of_gt hpos), numbered]
  refine ⟨hid, fun hroot => ?_, hid ▸ idAt_ne_nil hi⟩
  have hnumber := toNat_numbered (i := i) (by rw [UInt32.size]; omega)
  rw [hroot, show ItemId.root.number.toNat = 0xFFFFFFFE from rfl] at hnumber
  omega

/-- A number leads to the item it was given to, unless it is reserved. -/
theorem index?_numbered {t : NodeTree} {i : Nat} (hpos : 0 < i) (hi : i < t.size) (hroom : t.size ≤ UInt32.size) :
    t.index? (numbered i) =
      if i = 0xFFFFFFFE then some 0 else if i = 0xFFFFFFFF then none else some i := by
  by_cases hroot : i = 0xFFFFFFFE
  · rw [if_pos hroot, hroot, numbered_root, index?, if_pos rfl]
  · by_cases hnil : i = 0xFFFFFFFF
    · rw [if_neg hroot, if_pos hnil, hnil, numbered_nil, index?, if_neg (by decide), if_pos (.inl rfl)]
    · have hlimit : i < 0xFFFFFFFE := by
        rw [UInt32.size] at hroom
        omega
      rw [if_neg hroot, if_neg hnil, (numbered_of_lt hpos hlimit).1, index?_idAt hi hlimit]

/-! ## What a call does -/

/-- A log tells the numbers and the contents of the items, and every last child is
one of them. This stays true of trees of any size. -/
structure Numbers (path : Option Path) (log : Log) (t : NodeTree) : Prop where
  room : t.size ≤ UInt32.size
  added : log.added = (List.range' 1 (t.size - 1)).map numbered
  content : t.nodes.toList.map Node.content = (path, none) :: log.addedNodes.map Node.content
  lastChild : ∀ (i : Nat) (node : Node) (last : ItemId), t.nodes[i]? = some node → node.lastChild = some last →
    ∃ j, 0 < j ∧ j < t.size ∧ last = numbered j

/-- Linking leaves the contents alone. -/
theorem content_push {t t' : NodeTree} {node : Node} {p : Nat} {last : Option Nat} {id : ItemId}
    (hnodes : ∀ i, t'.nodes[i]? = if i = t.size then some node else t.nodes[i]?.map (relink p last id i)) :
    t'.nodes.toList.map Node.content = t.nodes.toList.map Node.content ++ [node.content] := by
  have hsize : (t.nodes.toList.map Node.content).length = t.size := by simp [size]
  refine List.ext_getElem? fun i => ?_
  rw [List.getElem?_map, Array.getElem?_toList, hnodes]
  rcases Nat.lt_trichotomy i t.size with hi | rfl | hi
  · rw [if_neg hi.ne, List.getElem?_append_left (by omega), List.getElem?_map, Array.getElem?_toList, Option.map_map]
    rfl
  · rw [if_pos rfl, List.getElem?_append_right (by omega), hsize, Nat.sub_self]
    rfl
  · rw [if_neg hi.ne', Array.getElem?_eq_none hi.le, List.getElem?_eq_none (by simp [hsize]; omega)]
    rfl

/-- Without a parent or without a number nothing is added. -/
theorem add_refused {t : NodeTree} {a : Addition} (hnone : t.index? a.parent = none ∨ t.size = UInt32.size) :
    t.add a = (t, none) := by
  rw [add_eq, push]
  cases hparent : t.index? a.parent with
  | none => rfl
  | some p =>
    have hfull : t.size = UInt32.size := hnone.resolve_left (by simp [hparent])
    simp only [hfull, Nat.lt_irrefl, if_false]

section Calls
variable {path : Option Path} {log : Log} {t : NodeTree} (h : Numbers path log t)
include h

theorem Numbers.size_eq : t.size = log.addedNodes.length + 1 := by
  have hlength := congrArg List.length h.content
  simpa [size] using hlength

/-- The last child of an item is found while there are numbers left: the one that
leads nowhere is given last. -/
theorem Numbers.exists_last {p : Nat} {pnode : Node} (hp : t.nodes[p]? = some pnode) (node : Node)
    (hroom : t.size < UInt32.size) :
    ∃ last : Option Nat, pnode.lastChild.map (NodeTree.index? ⟨t.nodes.push node⟩) = last.map some ∧
      ∀ l, last = some l → l < t.size := by
  cases hlast : pnode.lastChild with
  | none => exact ⟨none, rfl, by simp⟩
  | some id =>
    obtain ⟨j, hpos, hj, rfl⟩ := h.lastChild p pnode id hp hlast
    have hsize : (⟨t.nodes.push node⟩ : NodeTree).size = t.size + 1 := Array.size_push ..
    have hindex := index?_numbered (t := ⟨t.nodes.push node⟩) hpos (by omega) (by omega)
    rw [UInt32.size] at hroom
    rw [if_neg (show j ≠ 0xFFFFFFFF by omega)] at hindex
    refine ⟨some (if j = 0xFFFFFFFE then 0 else j), ?_, ?_⟩
    · rw [Option.map_some, hindex]
      split <;> rfl
    · rintro l ⟨⟩
      split <;> omega

theorem Numbers.append_refused (a : Addition) : Numbers path (log ++ [(a, none)]) t where
  room := h.room
  added := by rw [Log.added_append, h.added]; simp [Log.added]
  content := by rw [h.content]; simp [Log.addedNodes]
  lastChild := h.lastChild

/-- With both the new item gets the next number and comes last in the tree. -/
theorem Numbers.accepted {a : Addition} {p : Nat} (hparent : t.index? a.parent = some p)
    (hroom : t.size < UInt32.size) :
    ∃ t', t.add a = (t', some (numbered t.size)) ∧ t'.size = t.size + 1 ∧
      Numbers path (log ++ [(a, some (numbered t.size))]) t' := by
  have hpos : 0 < t.size := by rw [h.size_eq]; omega
  have hp := index?_lt hpos hparent
  have hpnode : t.nodes[p]? = some t.nodes[p] := Array.getElem?_eq_getElem hp
  obtain ⟨last, hlast, hlt⟩ := h.exists_last hpnode a.node hroom
  obtain ⟨t', hpush, hsize', hnodes⟩ := nodes_push_of_index a.node hparent hpnode hlast hlt hroom
  refine ⟨t', add_eq t a ▸ hpush, hsize', by omega, ?_, ?_, fun i node id hi hid => ?_⟩
  · rw [Log.added_append, h.added, hsize', map_range_size _ hpos]
    rfl
  · rw [content_push hnodes, h.content]
    simp [Log.addedNodes]
  · rw [hnodes] at hi
    split at hi
    · cases hi
      cases a <;> cases hid
    · obtain ⟨old, hold, rfl⟩ := Option.map_eq_some_iff.1 hi
      simp only [relink] at hid
      split at hid
      · cases hid
        exact ⟨t.size, hpos, by omega, rfl⟩
      · obtain ⟨j, hj, hjlt, rfl⟩ := h.lastChild i old id hold hid
        exact ⟨j, hj, by omega, rfl⟩

theorem Numbers.add (a : Addition) : Numbers path (log ++ [(a, (t.add a).2)]) (t.add a).1 := by
  cases hparent : t.index? a.parent with
  | none =>
    rw [add_refused (.inl hparent)]
    exact h.append_refused a
  | some p =>
    rcases Nat.lt_or_eq_of_le h.room with hroom | hfull
    · obtain ⟨t', hadd, -, hnumbers⟩ := h.accepted hparent hroom
      rw [hadd]
      exact hnumbers
    · rw [add_refused (.inr hfull)]
      exact h.append_refused a

end Calls

theorem numbers_start (path : Option Path) : Numbers path [] (ofRoot path) where
  room := show 1 ≤ UInt32.size by decide
  added := rfl
  content := rfl
  lastChild i node last hi hlast := by
    simp only [ofRoot, List.getElem?_toArray] at hi
    rw [List.mem_singleton.1 (List.mem_of_getElem? hi)] at hlast
    cases hlast

theorem Run.numbers {path : Option Path} {t : NodeTree} {log : Log} (hrun : Run path t log) : Numbers path log t := by
  induction hrun with
  | start => exact numbers_start path
  | add a _ ih => exact ih.add a

/-! ## What the calls answer -/

theorem Log.length_addedNodes (log : Log) : log.addedNodes.length = log.added.length := by
  induction log with
  | nil => rfl
  | cons call log ih =>
    obtain ⟨a, answer⟩ := call
    cases answer <;> simpa [Log.addedNodes, Log.added] using ih

section Answers
variable {path : Option Path} {t : NodeTree} {before after : Log} {a : Addition} {id : ItemId}
  (h : Numbers path (before ++ (a, some id) :: after) t)
include h

/-- A call is answered with the number of items that there were. -/
theorem Numbers.answer : before.added.length + 1 < t.size ∧
    before.added = (List.range' 1 before.added.length).map numbered ∧ id = numbered (before.added.length + 1) := by
  have hadded : (List.range' 1 (t.size - 1)).map numbered = before.added ++ id :: Log.added after := by
    rw [← h.added, Log.added_append]
    rfl
  obtain ⟨front, back, hsplit, hfront, hback⟩ := List.map_eq_append_iff.1 hadded
  obtain ⟨k, hk, rfl, rfl⟩ := List.range'_eq_append_iff.1 hsplit
  have hlength : before.added.length = k := by rw [← hfront, List.length_map, List.length_range']
  cases hrest : t.size - 1 - k with
  | zero =>
    rw [hrest] at hback
    cases hback
  | succ m =>
    rw [hrest, List.range'_succ, List.map_cons] at hback
    rw [hlength]
    exact ⟨by omega, hfront.symm, by rw [← (List.cons.inj hback).1, Nat.mul_one, Nat.add_comm]⟩

/-- What a call added stands at the index of that number. -/
theorem Numbers.stored : ∃ node, t.nodes[before.added.length + 1]? = some node ∧ node.content = a.node.content := by
  have hcontent : (t.nodes.toList.map Node.content)[before.added.length + 1]? = some a.node.content := by
    rw [h.content, List.getElem?_cons_succ, ← Log.length_addedNodes, Log.addedNodes, Log.addedNodes,
      List.filterMap_append, List.map_append, List.getElem?_append_right (by simp)]
    simp
  rw [List.getElem?_map, Array.getElem?_toList] at hcontent
  exact Option.map_eq_some_iff.1 hcontent

end Answers

/-- Every call of a run is answered with the number of items there were, which no
call before was answered with. As long as that number is below the reserved
ones, the answer is neither of them, and from then on it leads to the item that
the call added. A call that comes when all those numbers are given is answered
with the root, and the one after it with the id that leads nowhere. -/
theorem ids_of_run {path : Option Path} {t : NodeTree} {log before after : Log} {a : Addition} {id : ItemId}
    (hrun : Run path t log) (hlog : log = before ++ (a, some id) :: after) :
    let items := before.added.length + 1
    id.number.toNat = items ∧ id ∉ before.added ∧
      (items < 0xFFFFFFFE ∧ id ≠ .root ∧ id ≠ .nil ∧
          (∃ node, t.node? id = some node ∧ node.path = a.node.path ∧ node.nested = a.node.nested) ∨
        items = 0xFFFFFFFE ∧ id = .root ∧ t.index? id = some 0 ∨
        items = 0xFFFFFFFF ∧ id = .nil ∧ t.index? id = none) := by
  intro items
  have h : Numbers path (before ++ (a, some id) :: after) t := hlog ▸ hrun.numbers
  obtain ⟨hitems, hbefore, hid⟩ := h.answer
  change id = numbered items at hid
  have hroom : items < UInt32.size := Nat.lt_of_lt_of_le hitems h.room
  have hindex := index?_numbered (Nat.succ_pos _) hitems h.room
  rw [← hid] at hindex
  have hnumber : id.number.toNat = items := hid ▸ toNat_numbered hroom
  refine ⟨hnumber, fun hmem => ?_, ?_⟩
  · rw [hbefore] at hmem
    obtain ⟨i, hi, hsame⟩ := List.mem_map.1 hmem
    rw [List.mem_range'_1] at hi
    rw [← hsame, toNat_numbered (by omega)] at hnumber
    omega
  · rw [UInt32.size] at hroom
    rcases (by omega : items < 0xFFFFFFFE ∨ items = 0xFFFFFFFE ∨ items = 0xFFFFFFFF) with hlt | heq | heq
    · obtain ⟨-, hroot, hnil⟩ := numbered_of_lt (Nat.succ_pos _) hlt
      obtain ⟨node, hnode, hcontent⟩ := h.stored
      obtain ⟨hpath, hnested⟩ := Prod.mk.inj hcontent
      rw [if_neg (by omega), if_neg (by omega)] at hindex
      refine .inl ⟨hlt, hid ▸ hroot, hid ▸ hnil, node, ?_, hpath, hnested⟩
      rw [node?, hindex, Option.bind_some, hnode]
    · exact .inr (.inl ⟨heq, by rw [hid, heq, numbered_root], by rw [hindex, if_pos heq]⟩)
    · exact .inr (.inr ⟨heq, by rw [hid, heq, numbered_nil], by rw [hindex, if_neg (by omega), if_pos heq]⟩)

/-- An item and a nested tree below it; the second answer is a new number and leads
to the nested tree. -/
theorem ids_of_run_nested :
    let inner := (ofRoot (some ⟨"sub"⟩)).view
    let first := (ofRoot none).add (.item .root (some ⟨"a"⟩))
    let second := first.1.add (.nested ⟨1⟩ inner)
    let log : Log := [(.item .root (some ⟨"a"⟩), first.2), (.nested ⟨1⟩ inner, second.2)]
    Run none second.1 log ∧ log = [(.item .root (some ⟨"a"⟩), some ⟨1⟩)] ++ [(.nested ⟨1⟩ inner, some ⟨2⟩)] ∧
      (⟨2⟩ : ItemId) ∉ Log.added [(.item .root (some ⟨"a"⟩), some ⟨1⟩)] ∧
      ∃ node, second.1.node? ⟨2⟩ = some node ∧ node.path = none ∧ node.nested = some inner := by
  intro inner first second log
  have hrun : Run none second.1 log := .add _ (.add _ .start)
  have hlog : log = [(.item .root (some ⟨"a"⟩), some ⟨1⟩)] ++ [(.nested ⟨1⟩ inner, some ⟨2⟩)] := rfl
  obtain ⟨-, hnew, ⟨-, -, -, hnode⟩ | ⟨hitems, -⟩ | ⟨hitems, -⟩⟩ := ids_of_run hrun hlog
  · exact ⟨hrun, hlog, hnew, hnode⟩
  · cases hitems
  · cases hitems

/-! ## Reserved answers -/

/-- Items each below the one before, the first below the root, with the log of
the calls that added them. -/
def chain (name : Nat → Path) : Nat → NodeTree × Log
  | 0 => (ofRoot none, [])
  | n + 1 =>
    let before := chain name n
    let a : Addition := .item (idAt n) (some (name n))
    ((before.1.add a).1, before.2 ++ [(a, (before.1.add a).2)])

theorem run_chain (name : Nat → Path) (n : Nat) : Run none (chain name n).1 (chain name n).2 := by
  induction n with
  | zero => exact .start
  | succ n ih => exact .add _ ih

theorem size_chain (name : Nat → Path) {n : Nat} (hn : n < 0xFFFFFFFE) : (chain name n).1.size = n + 1 := by
  induction n with
  | zero => rfl
  | succ n ih =>
    have hsize := ih (by omega)
    have hparent : (chain name n).1.index? (idAt n) = some n := index?_idAt (by omega) (by omega)
    obtain ⟨t', hadd, hsize', -⟩ := (run_chain name n).numbers.accepted (a := .item (idAt n) (some (name n))) hparent
      (by rw [hsize, UInt32.size]; omega)
    rw [chain, hadd, hsize', hsize]

theorem index?_root (t : NodeTree) : t.index? .root = some 0 :=
  if_pos rfl

theorem index?_nil (t : NodeTree) : t.index? .nil = none := by
  rw [index?, if_neg (by decide), if_pos (.inl rfl)]

/-- When all numbers below the reserved ones are given, the next item under the
root gets the id of the root, and the one after it the id that leads nowhere. -/
theorem reserved_of_size {path : Option Path} {t : NodeTree} {log : Log} (hrun : Run path t log)
    (hsize : t.size = 0xFFFFFFFE) {a b : Addition} (ha : a.parent = .root) (hb : b.parent = .root) :
    (t.add a).2 = some .root ∧ ((t.add a).1.add b).2 = some .nil := by
  obtain ⟨t', hadd, hsize', hnumbers⟩ := hrun.numbers.accepted (a := a) (ha ▸ t.index?_root)
    (by rw [hsize]; decide)
  obtain ⟨t'', hadd', -⟩ := hnumbers.accepted (a := b) (hb ▸ t'.index?_root) (by rw [hsize', hsize]; decide)
  rw [hadd, hadd', hsize', hsize]
  exact ⟨rfl, rfl⟩

theorem reserved_of_chain (name : Nat → Path) {n : Nat} (hn : n = 0xFFFFFFFD) :
    let c := chain name n
    let next := c.1.add (.item .root none)
    let last := next.1.add (.item .root none)
    Run none c.1 c.2 ∧ next.2 = some .root ∧ next.1.index? .root = some 0 ∧
      last.2 = some .nil ∧ last.1.index? .nil = none := by
  intro c next last
  have hrun : Run none c.1 c.2 := run_chain ..
  have hsize : c.1.size = 0xFFFFFFFE := by rw [size_chain _ (by omega), hn]
  obtain ⟨hroot, hnil⟩ := reserved_of_size (a := .item .root none) (b := .item .root none) hrun hsize rfl rfl
  exact ⟨hrun, hroot, index?_root _, hnil, index?_nil _⟩

/-- A chain below the root takes all numbers but the reserved ones. The next item
gets the id of the root, which leads to the root and not to it, and the one
after it the id that leads nowhere. -/
theorem chain_answers_reserved :
    let c := chain (fun i => ⟨toString i⟩) 0xFFFFFFFD
    let next := c.1.add (.item .root none)
    let last := next.1.add (.item .root none)
    Run none c.1 c.2 ∧ next.2 = some .root ∧ next.1.index? .root = some 0 ∧
      last.2 = some .nil ∧ last.1.index? .nil = none :=
  -- The number of calls stays a variable there: nobody is to build this chain.
  reserved_of_chain _ rfl

end NodeTree

end SourceModel
