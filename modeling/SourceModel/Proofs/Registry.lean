import SourceModel.Registry
import Mathlib.Data.List.Nodup
import Mathlib.Data.List.Perm.Basic
/-!
# A registry is what it answers

Storing keeps the keys of a registry in ascending order. In that order there is
one list of entries for any given answers, so two registries that answer every
key alike are equal, whatever was stored in them and when. A list of keys is
sorted by storing them, which also drops what is there twice.
-/

namespace SourceModel

namespace Registry

variable {κ α : Type} [LT κ]

/-- The keys ascend. -/
def Ordered (r : Registry κ α) : Prop :=
  r.entries.Pairwise fun e e' => e.1 < e'.1

theorem ordered_empty : (empty : Registry κ α).Ordered :=
  .nil

section Answers
variable [Std.Irrefl ((· < ·) : κ → κ → Prop)]

theorem Ordered.nodup_keys {r : Registry κ α} (h : r.Ordered) : r.keys.Nodup := by
  refine List.pairwise_map.2 (List.Pairwise.imp ?_ h)
  rintro e e' hlt heq
  exact Std.Irrefl.irrefl (r := (· < ·)) e'.1 (heq ▸ hlt)

/-- A registry answers with what it holds. -/
theorem Ordered.find?_eq_some [DecidableEq κ] {r : Registry κ α} (h : r.Ordered) {key : κ} {value : α} :
    r.find? key = some value ↔ (key, value) ∈ r.entries := by
  constructor
  · intro hfind
    obtain ⟨e, he, rfl⟩ := Option.map_eq_some_iff.1 hfind
    have hkey : e.1 = key := by simpa using List.find?_some he
    exact hkey ▸ List.mem_of_find?_eq_some he
  · intro hmem
    obtain ⟨e, he⟩ : ∃ e, r.entries.find? (·.1 = key) = some e :=
      Option.isSome_iff_exists.1 (List.find?_isSome.2 ⟨_, hmem, by simp⟩)
    have hkey : e.1 = key := by simpa using List.find?_some he
    have hsame : e = (key, value) :=
      List.inj_on_of_nodup_map h.nodup_keys (List.mem_of_find?_eq_some he) hmem hkey
    rw [find?, he, hsame, Option.map_some]

end Answers

theorem Ordered.ext [DecidableEq κ] [Std.Asymm ((· < ·) : κ → κ → Prop)] {r r' : Registry κ α} (h : r.Ordered)
    (h' : r'.Ordered) (hfind : ∀ key, r.find? key = r'.find? key) : r = r' := by
  have hmem : ∀ e, e ∈ r.entries ↔ e ∈ r'.entries := by
    rintro ⟨key, value⟩
    rw [← h.find?_eq_some, hfind, h'.find?_eq_some]
  have hperm : r.entries.Perm r'.entries :=
    (List.perm_ext_iff_of_nodup h.nodup_keys.of_map h'.nodup_keys.of_map).2 hmem
  have hentries : r.entries = r'.entries :=
    hperm.eq_of_pairwise (fun e e' _ _ hlt hgt => absurd hgt (Std.Asymm.asymm _ _ hlt)) h h'
  cases r
  cases r'
  exact congrArg Registry.mk hentries

section Stored
variable [DecidableEq κ] [DecidableLT κ]

theorem mem_putEntry {key : κ} {value : α} {entries : List (κ × α)} {e : κ × α}
    (h : e ∈ putEntry key value entries) : e = (key, value) ∨ e ∈ entries := by
  induction entries with
  | nil => exact .inl (List.mem_singleton.1 h)
  | cons first rest ih =>
    obtain ⟨k, v⟩ := first
    rw [putEntry] at h
    split at h
    · rcases List.mem_cons.1 h with rfl | h
      · exact .inl rfl
      · exact .inr (List.mem_cons_of_mem _ h)
    · split at h
      · exact List.mem_cons.1 h
      · rcases List.mem_cons.1 h with rfl | h
        · exact .inr List.mem_cons_self
        · exact (ih h).imp_right (List.mem_cons_of_mem _)

variable [Std.Trichotomous ((· < ·) : κ → κ → Prop)] [IsTrans κ (· < ·)]

theorem pairwise_putEntry (key : κ) (value : α) {entries : List (κ × α)}
    (h : entries.Pairwise fun e e' => e.1 < e'.1) :
    (putEntry key value entries).Pairwise fun e e' => e.1 < e'.1 := by
  induction entries with
  | nil => exact List.pairwise_singleton _ _
  | cons first rest ih =>
    obtain ⟨k, v⟩ := first
    have ⟨hfirst, hrest⟩ := List.pairwise_cons.1 h
    rw [putEntry]
    split
    · rename_i heq
      subst heq
      exact List.pairwise_cons.2 ⟨hfirst, hrest⟩
    · rename_i hne
      split
      · rename_i hlt
        refine List.pairwise_cons.2 ⟨List.forall_mem_cons.2 ⟨hlt, fun e he => ?_⟩, h⟩
        exact IsTrans.trans _ _ _ hlt (hfirst e he)
      · rename_i hnlt
        have hgt : k < key := by
          by_contra hngt
          exact hne (Std.Trichotomous.trichotomous key k hnlt hngt)
        refine List.pairwise_cons.2 ⟨fun e he => ?_, ih hrest⟩
        rcases mem_putEntry he with rfl | he
        · exact hgt
        · exact hfirst e he

theorem Ordered.put {r : Registry κ α} (h : r.Ordered) (key : κ) (value : α) : (r.put key value).Ordered :=
  pairwise_putEntry key value h

theorem Ordered.putNew {r : Registry κ α} (h : r.Ordered) (key : κ) (value : α) : (r.putNew key value).Ordered := by
  rw [Registry.putNew]
  split
  · exact h
  · exact h.put key value

theorem Ordered.foldl_put {keys : List κ} {r : Registry κ Unit} (h : r.Ordered) :
    (keys.foldl (fun r key => r.put key ()) r).Ordered := by
  induction keys generalizing r with
  | nil => exact h
  | cons key keys ih => exact ih (h.put key ())

/-- Sorted keys ascend strictly, so none is there twice. -/
theorem pairwise_sortedKeys (keys : List κ) : (sortedKeys keys).Pairwise (· < ·) :=
  List.pairwise_map.2 ordered_empty.foldl_put

end Stored

/-! ## Keys -/

section Keys
variable [DecidableEq κ]

omit [LT κ] in
/-- A registry has a key when it answers it. -/
theorem mem_keys {r : Registry κ α} {key : κ} : key ∈ r.keys ↔ r.contains key = true := by
  rw [contains, find?, Option.isSome_map, List.find?_isSome, keys, List.mem_map]
  simp

variable [DecidableLT κ]

theorem contains_foldl_put (keys : List κ) (r : Registry κ Unit) (k : κ) :
    (keys.foldl (fun r key => r.put key ()) r).contains k = true ↔ k ∈ keys ∨ r.contains k = true := by
  induction keys generalizing r with
  | nil => simp
  | cons key keys ih =>
    rw [List.foldl_cons, ih, contains, contains, find?_put, List.mem_cons]
    by_cases hk : key = k
    · simp [hk]
    · simp [hk, Ne.symm hk]

theorem mem_sortedKeys {keys : List κ} {key : κ} : key ∈ sortedKeys keys ↔ key ∈ keys := by
  rw [sortedKeys, mem_keys, contains_foldl_put]
  simp [contains, find?, empty]

end Keys

end Registry

end SourceModel
