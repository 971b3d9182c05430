/-!
# Registries

A registry holds at most one value per key, in ascending order of keys, so two
registries with the same contents are equal whatever the order in which they
were filled.
-/

namespace SourceModel

structure Registry (κ α : Type) where
  entries : List (κ × α)
  deriving BEq

namespace Registry

variable {κ α : Type}

def empty : Registry κ α := ⟨[]⟩

def keys (r : Registry κ α) : List κ := r.entries.map (·.1)

def values (r : Registry κ α) : List α := r.entries.map (·.2)

def size (r : Registry κ α) : Nat := r.entries.length

section Lookup
variable [DecidableEq κ]

def find? (r : Registry κ α) (key : κ) : Option α :=
  (r.entries.find? (·.1 = key)).map (·.2)

def contains (r : Registry κ α) (key : κ) : Bool :=
  (r.find? key).isSome

end Lookup

section Insert
variable [DecidableEq κ] [LT κ] [DecidableLT κ]

def putEntry (key : κ) (value : α) : List (κ × α) → List (κ × α)
  | [] => [(key, value)]
  | (k, v) :: rest =>
    if key = k then (key, value) :: rest
    else if key < k then (key, value) :: (k, v) :: rest
    else (k, v) :: putEntry key value rest

/-- Stores a value, in place of an earlier one of the same key. -/
def put (r : Registry κ α) (key : κ) (value : α) : Registry κ α :=
  ⟨putEntry key value r.entries⟩

/-- Stores a value unless the key is taken: the first one stays. -/
def putNew (r : Registry κ α) (key : κ) (value : α) : Registry κ α :=
  if r.contains key then r else r.put key value

/-- The keys of a list in ascending order, each once. -/
def sortedKeys (keys : List κ) : List κ :=
  (keys.foldl (fun r key => r.put key ()) (empty : Registry κ Unit)).keys

theorem find?_putEntry (key : κ) (value : α) (entries : List (κ × α)) (k : κ) :
    ((putEntry key value entries).find? (·.1 = k)).map (·.2) =
      if key = k then some value else (entries.find? (·.1 = k)).map (·.2) := by
  induction entries with
  | nil => by_cases h : key = k <;> simp [putEntry, h]
  | cons e rest ih =>
    obtain ⟨k', v⟩ := e
    by_cases h : key = k' <;> by_cases hk : key = k <;> by_cases hk' : k' = k <;>
      by_cases hlt : key < k' <;> simp_all [putEntry]

theorem find?_put (r : Registry κ α) (key : κ) (value : α) (k : κ) :
    (r.put key value).find? k = if key = k then some value else r.find? k :=
  find?_putEntry key value r.entries k

theorem find?_putNew (r : Registry κ α) (key : κ) (value : α) (k : κ) :
    (r.putNew key value).find? k = if key = k then (r.find? k).or (some value) else r.find? k := by
  unfold putNew contains
  split <;> rename_i h
  · by_cases hk : key = k
    · subst hk
      obtain ⟨v, hv⟩ := Option.isSome_iff_exists.1 h
      simp [hv]
    · simp [hk]
  · rw [find?_put]
    by_cases hk : key = k
    · subst hk
      simp [Option.not_isSome_iff_eq_none.1 h]
    · simp [hk]

end Insert

end Registry

end SourceModel
