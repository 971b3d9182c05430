import SourceModel.Hierarchy.Walk
import Mathlib.Data.List.Nodup
import Mathlib.Data.List.Perm.Subperm
/-!
# A walk lists a hierarchy in preorder

`Preorder` says recursively what a walk should list: the walk of the hierarchy
that replaces an item, or the item's own path and then the walks of its
children. The walk itself keeps a stack of items from several hierarchies; the
invariant is that a stack yields what its items should list, one after the
other, whatever lies below them (`YieldsIn`, `Yields`).

The unfolding of an item is finite when the recursion ends, which is what
`Unfolds` says without looking at paths.
-/

namespace SourceModel.Hierarchy

/-- The items of a sibling chain, which ends at no item or at the nil item. -/
inductive Siblings (h : Hierarchy) : Option ItemId → List ItemId → Prop
  | none : Siblings h none []
  | nil : Siblings h (some .nil) []
  | item {i : ItemId} {items : List ItemId} :
      i ≠ .nil → Siblings h (h.nextSibling i) items → Siblings h (some i) (i :: items)

/-- The unfolding of an item through nested roots, first children and next
siblings is finite. -/
inductive Unfolds : Hierarchy → ItemId → Prop
  | replaced {h inner : Hierarchy} {item : ItemId} :
      h.nested item = some (inner, .root) → Unfolds inner .root → Unfolds h item
  | plain {h : Hierarchy} {item : ItemId} {children : List ItemId} :
      (∀ inner, h.nested item ≠ some (inner, .root)) → Siblings h (h.firstChild item) children →
      (∀ c ∈ children, Unfolds h c) → Unfolds h item

/-- The paths below and at an item, in order. An item with a hierarchy nested by
its root lists that hierarchy and nothing of its own; any other item lists its
own path, if any, and then its children in sibling order. -/
inductive Preorder : Hierarchy → ItemId → List Path → Prop
  | replaced {h inner : Hierarchy} {item : ItemId} {paths : List Path} :
      h.nested item = some (inner, .root) → Preorder inner .root paths → Preorder h item paths
  | plain {h : Hierarchy} {item : ItemId} {children : List ItemId} {below : ItemId → List Path} :
      (∀ inner, h.nested item ≠ some (inner, .root)) → Siblings h (h.firstChild item) children →
      (∀ c ∈ children, Preorder h c (below c)) →
      Preorder h item ((h.path item).toList ++ children.flatMap below)

/-! ## Sibling chains -/

theorem Siblings.unique {h : Hierarchy} {start : Option ItemId} {items items' : List ItemId}
    (hs : Siblings h start items) (hs' : Siblings h start items') : items' = items := by
  induction hs generalizing items' with
  | none => cases hs'; rfl
  | nil =>
    cases hs' with
    | nil => rfl
    | item hne _ => exact absurd rfl hne
  | item hne _ ih =>
    cases hs' with
    | nil => exact absurd rfl hne
    | item _ htail => rw [ih htail]

/-- The chain from an item of a chain is the rest of that chain. -/
theorem Siblings.tail {h : Hierarchy} {start : Option ItemId} {items before after : List ItemId} {i : ItemId}
    (hs : Siblings h start items) (heq : items = before ++ i :: after) : Siblings h (some i) (i :: after) := by
  induction hs generalizing before with
  | none => simp at heq
  | nil => simp at heq
  | @item j items hne htail ih =>
    cases before with
    | nil =>
      obtain ⟨rfl, rfl⟩ := List.cons.inj heq
      exact .item hne htail
    | cons _ before => exact ih (List.cons.inj heq).2

/-- A chain that came back to an item of its own would not end. -/
theorem Siblings.nodup {h : Hierarchy} {start : Option ItemId} {items : List ItemId}
    (hs : Siblings h start items) : items.Nodup := by
  induction hs with
  | none => exact .nil
  | nil => exact .nil
  | @item i items hne htail ih =>
    refine List.nodup_cons.2 ⟨fun hmem => ?_, ih⟩
    obtain ⟨before, after, heq⟩ := List.append_of_mem hmem
    have hagain := (htail.tail heq).unique (.item hne htail)
    rw [List.cons.injEq, heq] at hagain
    have := congrArg List.length hagain.2
    simp at this
    omega

/-- There are only so many numbers for the items of a chain. -/
theorem Siblings.length_le {h : Hierarchy} {start : Option ItemId} {items : List ItemId}
    (hs : Siblings h start items) : items.length ≤ UInt32.size := by
  have hinj : Function.Injective fun i : ItemId => i.number.toNat := by
    rintro ⟨a⟩ ⟨b⟩ hab
    exact congrArg ItemId.mk (UInt32.toNat_inj.1 hab)
  have hsub : items.map (·.number.toNat) ⊆ List.range UInt32.size := by
    intro n hn
    obtain ⟨i, -, rfl⟩ := List.mem_map.1 hn
    exact List.mem_range.2 i.number.toNat_lt_size
  have hle := (List.subperm_of_subset (hs.nodup.map hinj) hsub).length_le
  rwa [List.length_map, List.length_range] at hle

theorem Siblings.chain_eq {h : Hierarchy} {start : Option ItemId} {items : List ItemId}
    (hs : Siblings h start items) {fuel : Nat} (hfuel : items.length ≤ fuel) (found : List ItemId) :
    h.chain fuel start found = some (items.reverse ++ found) := by
  induction hs generalizing fuel found with
  | none => cases fuel <;> rfl
  | nil => cases fuel <;> rfl
  | @item i items hne _ ih =>
    cases fuel with
    | zero => simp at hfuel
    | succ fuel =>
      rw [chain, if_neg hne, ih (Nat.le_of_succ_le_succ hfuel)]
      simp

theorem Siblings.childrenReversed_eq {h : Hierarchy} {item : ItemId} {children : List ItemId}
    (hs : Siblings h (h.firstChild item) children) : h.childrenReversed item = some children.reverse := by
  rw [childrenReversed, hs.chain_eq hs.length_le, List.append_nil]

/-! ## What should be listed -/

theorem replacement_eq_some {h inner : Hierarchy} {item : ItemId} (hn : h.nested item = some (inner, .root)) :
    h.replacement item = some inner := by
  simp [replacement, hn]

theorem replacement_eq_none {h : Hierarchy} {item : ItemId} (hn : ∀ inner, h.nested item ≠ some (inner, .root)) :
    h.replacement item = none := by
  unfold replacement
  cases hnested : h.nested item with
  | none => rfl
  | some entry =>
    obtain ⟨inner, target⟩ := entry
    refine if_neg ?_
    rintro rfl
    exact hn inner hnested

/-- An item lists one list of paths. -/
theorem Preorder.unique {h : Hierarchy} {item : ItemId} {paths paths' : List Path}
    (hp : Preorder h item paths) (hp' : Preorder h item paths') : paths' = paths := by
  induction hp generalizing paths' with
  | replaced hn _ ih =>
    cases hp' with
    | replaced hn' hinner =>
      rw [hn, Option.some.injEq, Prod.mk.injEq] at hn'
      obtain ⟨rfl, -⟩ := hn'
      exact ih hinner
    | plain hn' _ _ => exact absurd hn (hn' _)
  | @plain h item children below hn hs _ ih =>
    cases hp' with
    | replaced hn' _ => exact absurd hn' (hn _)
    | plain _ hs' hbelow =>
      cases hs.unique hs'
      rw [List.flatMap_congr fun c hc => ih c hc (hbelow c hc)]

/-- What unfolds to the end can be listed. -/
theorem Unfolds.exists_preorder {h : Hierarchy} {item : ItemId} (hu : Unfolds h item) :
    ∃ paths, Preorder h item paths := by
  induction hu with
  | replaced hn _ ih =>
    obtain ⟨paths, hp⟩ := ih
    exact ⟨paths, .replaced hn hp⟩
  | @plain h item children hn hs _ ih =>
    classical
    let below := fun c => if hc : c ∈ children then (ih c hc).choose else []
    have hbelow : ∀ c ∈ children, Preorder h c (below c) := by
      intro c hc
      simp only [below, dif_pos hc]
      exact (ih c hc).choose_spec
    exact ⟨_, .plain hn hs hbelow⟩

/-! ## The stack -/

/-- Whatever lies below them on the stack, the walk takes these items off in
`cost` steps, and the visits it makes meanwhile are those of `paths`. -/
def YieldsIn (cost : Nat) (frames : List (Hierarchy × ItemId)) (paths : List Path) : Prop :=
  ∃ visits : List Visit, (∀ accept, Visit.paths visits accept = paths.filter accept) ∧
    ∀ fuel stack seen,
      walkStack (fuel + cost) (frames ++ stack) seen = walkStack fuel stack (visits.reverse ++ seen)

/-- The walk takes these items off in some number of steps. -/
def Yields (frames : List (Hierarchy × ItemId)) (paths : List Path) : Prop :=
  ∃ cost, YieldsIn cost frames paths

theorem YieldsIn.nil : YieldsIn 0 [] [] :=
  ⟨[], fun _ => rfl, fun _ _ _ => rfl⟩

theorem YieldsIn.append {cost cost' : Nat} {frames frames' : List (Hierarchy × ItemId)} {paths paths' : List Path}
    (hy : YieldsIn cost frames paths) (hy' : YieldsIn cost' frames' paths') :
    YieldsIn (cost' + cost) (frames ++ frames') (paths ++ paths') := by
  obtain ⟨visits, hvisits, hwalk⟩ := hy
  obtain ⟨visits', hvisits', hwalk'⟩ := hy'
  refine ⟨visits ++ visits', fun accept => ?_, fun fuel stack seen => ?_⟩
  · rw [List.filter_append, ← hvisits, ← hvisits']
    exact List.filterMap_append
  · rw [← Nat.add_assoc, List.append_assoc, hwalk, hwalk', List.reverse_append, List.append_assoc]

theorem Yields.flatMap {h : Hierarchy} {children : List ItemId} {below : ItemId → List Path}
    (hy : ∀ c ∈ children, Yields [(h, c)] (below c)) :
    Yields (children.map (h, ·)) (children.flatMap below) := by
  induction children with
  | nil => exact ⟨0, .nil⟩
  | cons c children ih =>
    obtain ⟨cost, hfirst⟩ := hy c List.mem_cons_self
    obtain ⟨cost', hrest⟩ := ih fun c' hc' => hy c' (List.mem_cons_of_mem _ hc')
    exact ⟨_, hfirst.append hrest⟩

/-- The nested hierarchy takes the place of the item. -/
theorem YieldsIn.replaced {cost : Nat} {h inner : Hierarchy} {item : ItemId} {paths : List Path}
    (hn : h.nested item = some (inner, .root)) (hy : YieldsIn cost [(inner, .root)] paths) :
    YieldsIn (cost + 1) [(h, item)] paths := by
  obtain ⟨visits, hvisits, hwalk⟩ := hy
  refine ⟨.descend item :: visits, fun accept => ?_, fun fuel stack seen => ?_⟩
  · rw [← hvisits]
    rfl
  · have hstep := hwalk fuel stack (.descend item :: seen)
    rw [← Nat.add_assoc, List.singleton_append, walkStack, replacement_eq_some hn]
    rw [List.singleton_append] at hstep
    simp only [hstep, List.reverse_cons, List.append_assoc, List.singleton_append]

theorem foldl_push (h : Hierarchy) (children : List ItemId) (stack : List (Hierarchy × ItemId)) :
    children.reverse.foldl (fun stack child => (h, child) :: stack) stack = children.map (h, ·) ++ stack := by
  induction children with
  | nil => rfl
  | cons c children ih => rw [List.reverse_cons, List.foldl_append, ih]; rfl

/-- An item goes off the stack, its path is visited, and its children come on,
the first of them on top. -/
theorem YieldsIn.plain {cost : Nat} {h : Hierarchy} {item : ItemId} {children : List ItemId} {paths : List Path}
    (hn : ∀ inner, h.nested item ≠ some (inner, .root)) (hs : Siblings h (h.firstChild item) children)
    (hy : YieldsIn cost (children.map (h, ·)) paths) :
    YieldsIn (cost + 1) [(h, item)] ((h.path item).toList ++ paths) := by
  obtain ⟨visits, hvisits, hwalk⟩ := hy
  refine ⟨(h.path item).toList.map .path ++ visits, fun accept => ?_, fun fuel stack seen => ?_⟩
  · rw [List.filter_append, ← hvisits]
    cases h.path item with
    | none => rfl
    | some path => by_cases ha : accept path <;> simp [Visit.paths, ha]
  · rw [← Nat.add_assoc, List.singleton_append, walkStack, replacement_eq_none hn, hs.childrenReversed_eq]
    simp only [foldl_push, hwalk, List.reverse_append, List.append_assoc]
    cases h.path item <;> rfl

/-- With so many steps of fuel the walk ends, and so it does with more. -/
theorem YieldsIn.exists_visits {cost : Nat} {h : Hierarchy} {paths : List Path}
    (hy : YieldsIn cost [(h, .root)] paths) :
    ∃ visits : List Visit, (∀ fuel, cost ≤ fuel → h.walk? fuel = some visits) ∧
      ∀ accept, Visit.paths visits accept = paths.filter accept := by
  obtain ⟨visits, hvisits, hwalk⟩ := hy
  refine ⟨visits, fun fuel hfuel => ?_, hvisits⟩
  obtain ⟨more, rfl⟩ := Nat.exists_eq_add_of_le' hfuel
  rw [walk?, ← List.append_nil [(h, ItemId.root)], hwalk, List.append_nil]
  cases more <;> simp [walkStack]

/-- The walk lists what it should. -/
theorem Preorder.yields {h : Hierarchy} {item : ItemId} {paths : List Path} (hp : Preorder h item paths) :
    Yields [(h, item)] paths := by
  induction hp with
  | replaced hn _ ih =>
    obtain ⟨cost, hy⟩ := ih
    exact ⟨cost + 1, hy.replaced hn⟩
  | plain hn hs _ ih =>
    obtain ⟨cost, hy⟩ := Yields.flatMap ih
    exact ⟨cost + 1, hy.plain hn hs⟩

/-- From some fuel on the walk ends, always with the same visits. -/
theorem Preorder.exists_visits {h : Hierarchy} {paths : List Path} (hp : Preorder h .root paths) :
    ∃ (cost : Nat) (visits : List Visit), (∀ fuel, cost ≤ fuel → h.walk? fuel = some visits) ∧
      ∀ accept, Visit.paths visits accept = paths.filter accept := by
  obtain ⟨cost, hy⟩ := hp.yields
  exact ⟨cost, hy.exists_visits⟩

/-- More fuel does not change a walk that ended. -/
theorem walkStack_add {fuel : Nat} {stack : List (Hierarchy × ItemId)} {seen visits : List Visit}
    (h : walkStack fuel stack seen = some visits) (more : Nat) : walkStack (fuel + more) stack seen = some visits := by
  induction fuel generalizing stack seen with
  | zero =>
    cases stack with
    | nil => cases more <;> exact h
    | cons => cases h
  | succ fuel ih =>
    cases stack with
    | nil => cases more <;> exact h
    | cons frame stack =>
      obtain ⟨h', item⟩ := frame
      rw [walkStack] at h
      rw [Nat.add_right_comm, walkStack]
      cases hr : h'.replacement item with
      | some inner =>
        simp only [hr] at h ⊢
        exact ih h
      | none =>
        cases hc : h'.childrenReversed item with
        | none => simp [hr, hc] at h
        | some children =>
          simp only [hr, hc] at h ⊢
          exact ih h

/-- Whatever the fuel, a walk that ends lists what it should. -/
theorem Preorder.paths_eq {h : Hierarchy} {paths : List Path} (hp : Preorder h .root paths) {fuel : Nat}
    {visits : List Visit} (hwalk : h.walk? fuel = some visits) (accept : Path → Bool) :
    Visit.paths visits accept = paths.filter accept := by
  obtain ⟨cost, visits', hvisits, hpaths⟩ := hp.exists_visits
  have hmore : h.walk? (fuel + cost) = some visits := walkStack_add hwalk cost
  rw [hvisits _ (Nat.le_add_left _ _), Option.some.injEq] at hmore
  rw [← hmore, hpaths]

end SourceModel.Hierarchy
