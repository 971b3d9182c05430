import SourceModel.Proofs.FileSystem.Spelling
import Mathlib.Data.List.Infix
/-!
# Locations and their paths

A location is a list of names, and its path spells them between slashes. Where
the names are proper ones and no link stands on the way, that path leads back to
the location or, through a closed directory, nowhere: this is what makes a path
that was resolved once a canonical one. `Readable` says of all entries of a tree
at once that their paths lead to them, and then every question about a path
below it is a question about the tree.
-/

namespace SourceModel

/-! ## Names -/

/-- A text that can be the name of an entry. -/
structure IsName (name : String) : Prop where
  nonempty : name ≠ ""
  noSlash : '/' ∉ name.toList
  noNul : '\x00' ∉ name.toList
  notDot : name ≠ "."
  notDots : name ≠ ".."
  short : name.utf8ByteSize ≤ FileSystem.maxNameBytes

instance (name : String) : Decidable (IsName name) :=
  decidable_of_iff (name ≠ "" ∧ '/' ∉ name.toList ∧ '\x00' ∉ name.toList ∧ name ≠ "." ∧ name ≠ ".." ∧
      name.utf8ByteSize ≤ FileSystem.maxNameBytes)
    ⟨fun ⟨h₁, h₂, h₃, h₄, h₅, h₆⟩ => ⟨h₁, h₂, h₃, h₄, h₅, h₆⟩,
      fun h => ⟨h.nonempty, h.noSlash, h.noNul, h.notDot, h.notDots, h.short⟩⟩

namespace Path

theorem splitSlashes_of_not_mem {cs : List Char} (h : '/' ∉ cs) : splitSlashes cs = [cs] := by
  induction cs with
  | nil => rfl
  | cons c cs ih =>
    rw [List.mem_cons, not_or] at h
    rw [splitSlashes, if_neg (Ne.symm h.1), ih h.2]

theorem splitSlashes_append_slash {cs : List Char} (h : '/' ∉ cs) (rest : List Char) :
    splitSlashes (cs ++ '/' :: rest) = cs :: splitSlashes rest := by
  induction cs with
  | nil => rw [List.nil_append, splitSlashes, if_pos rfl]
  | cons c cs ih =>
    rw [List.mem_cons, not_or] at h
    rw [List.cons_append, splitSlashes, if_neg (Ne.symm h.1), ih h.2]

theorem splitSlashes_intercalate {segments : List (List Char)} (hne : segments ≠ [])
    (h : ∀ segment ∈ segments, '/' ∉ segment) : splitSlashes (['/'].intercalate segments) = segments := by
  induction segments with
  | nil => exact absurd rfl hne
  | cons segment rest ih =>
    rw [List.forall_mem_cons] at h
    cases rest with
    | nil => rw [List.intercalate_singleton, splitSlashes_of_not_mem h.1]
    | cons next rest =>
      rw [List.intercalate_cons_cons, List.append_assoc, List.singleton_append, splitSlashes_append_slash h.1,
        ih (List.cons_ne_nil _ _) h.2]

end Path

namespace FileSystem

variable {location : Location}

theorem toList_pathOf (location : Location) :
    (pathOf location).text.toList = '/' :: ['/'].intercalate (location.map String.toList) := by
  rw [pathOf, String.toList_append, String.toList_intercalate]
  rfl

theorem text_pathOf_ne (location : Location) : (pathOf location).text ≠ "" := by
  intro hempty
  have hnil := congrArg String.toList hempty
  rw [toList_pathOf] at hnil
  cases hnil

theorem segments_pathOf (h : ∀ name ∈ location, IsName name) : (pathOf location).segments = location := by
  rw [Path.segments, toList_pathOf, Path.splitSlashes, if_pos rfl]
  by_cases hne : location = []
  · simp [hne, Path.splitSlashes]
  · have hslash : ∀ segment ∈ location.map String.toList, '/' ∉ segment := by
      intro segment hsegment
      obtain ⟨name, hname, rfl⟩ := List.mem_map.1 hsegment
      exact (h name hname).noSlash
    have hkeep : (location.map String.toList).filter (· ≠ []) = location.map String.toList := by
      refine List.filter_eq_self.2 fun segment hsegment => ?_
      obtain ⟨name, hname, rfl⟩ := List.mem_map.1 hsegment
      simpa using (h name hname).nonempty
    rw [Path.splitSlashes_intercalate (by simpa using hne) hslash, List.filter_cons_of_neg (by simp), hkeep]
    simp

theorem isAbsolute_pathOf (location : Location) : (pathOf location).isAbsolute = true := by
  rw [Path.isAbsolute, toList_pathOf]
  rfl

/-- The path of an entry is the path of its directory, a slash and its name. The
root's own path is a slash already. -/
theorem toList_pathOf_concat (location : Location) (name : String) :
    (pathOf (location ++ [name])).text.toList =
      (if location = [] then [] else (pathOf location).text.toList) ++ '/' :: name.toList := by
  have hconcat : ∀ segments : List (List Char), segments ≠ [] →
      ['/'].intercalate (segments ++ [name.toList]) = ['/'].intercalate segments ++ '/' :: name.toList := by
    intro segments hsegments
    induction segments with
    | nil => exact absurd rfl hsegments
    | cons segment segments ih =>
      cases segments with
      | nil => simp [List.intercalate]
      | cons next segments =>
        have hrest := ih (List.cons_ne_nil _ _)
        simp only [List.cons_append] at hrest ⊢
        rw [List.intercalate_cons_cons, hrest, List.intercalate_cons_cons]
        simp
  rw [toList_pathOf, toList_pathOf, List.map_append, List.map_singleton]
  by_cases hne : location = []
  · simp [hne]
  · rw [if_neg hne, hconcat _ (by simpa using hne), List.cons_append]

/-- Only the path of the root ends in a slash. -/
theorem hasTrailingSlash_pathOf (h : ∀ name ∈ location, IsName name) :
    (pathOf location).hasTrailingSlash = decide (location = []) := by
  rcases List.eq_nil_or_concat location with rfl | ⟨front, name, rfl⟩
  · rw [Path.hasTrailingSlash, toList_pathOf]
    rfl
  · rw [List.concat_eq_append] at h ⊢
    have hname := h name (by simp)
    have hlast : ('/' :: name.toList).getLast? ≠ some '/' := by
      rw [List.getLast?_cons]
      cases hc : name.toList.getLast? with
      | none => exact absurd (by simpa using hc) hname.nonempty
      | some c =>
        rw [Option.getD_some]
        rintro ⟨⟩
        exact hname.noSlash (List.mem_of_getLast? hc)
    rw [Path.hasTrailingSlash, toList_pathOf_concat, List.getLast?_append, Option.or_of_isSome (by simp)]
    simpa using hlast

theorem requests_pathOf (h : ∀ name ∈ location, IsName name) :
    requests (pathOf location) = if location = [] then ["."] else location := by
  rw [requests, segments_pathOf h, hasTrailingSlash_pathOf h]
  by_cases hne : location = [] <;> simp [hne]

theorem join_pathOf (h : ∀ name ∈ location, IsName name) (name : String) :
    (pathOf location).join name = pathOf (location ++ [name]) := by
  have hext : ∀ p q : Path, p.text.toList = q.text.toList → p = q := by
    rintro ⟨p⟩ ⟨q⟩ hpq
    exact congrArg Path.mk (String.toList_inj.1 hpq)
  apply hext
  rw [Path.join, if_neg (text_pathOf_ne location), hasTrailingSlash_pathOf h, toList_pathOf_concat]
  by_cases hne : location = []
  · simp [hne, pathOf]
  · simp [hne]

theorem nul_not_mem_pathOf (h : ∀ name ∈ location, IsName name) : '\x00' ∉ (pathOf location).text.toList := by
  induction location using List.reverseRecOn with
  | nil =>
    rw [toList_pathOf]
    decide
  | append_singleton front name ih =>
    rw [List.forall_mem_append, List.forall_mem_singleton] at h
    rw [toList_pathOf_concat]
    have hname := h.2.noNul
    by_cases hne : front = []
    · simpa [hne] using hname
    · simpa [hne, hname] using ih h.1

/-- A name takes at most as many bytes as it may have, and a slash. -/
theorem utf8ByteSize_pathOf_le (h : ∀ name ∈ location, IsName name) :
    (pathOf location).text.utf8ByteSize ≤ (maxNameBytes + 1) * location.length + 1 := by
  induction location using List.reverseRecOn with
  | nil => decide
  | append_singleton front name ih =>
    rw [List.forall_mem_append, List.forall_mem_singleton] at h
    have hfront := ih h.1
    have hname := h.2.short
    have hslash : "/".utf8ByteSize = 1 := by decide
    rw [← join_pathOf h.1, List.length_append, List.length_singleton, Nat.mul_add_one, Path.join,
      if_neg (text_pathOf_ne front)]
    split <;> simp only [String.utf8ByteSize_append] <;> omega

end FileSystem

/-! ## Trees -/

namespace Entry

def isLink : Entry → Bool
  | .link _ => true
  | _ => false

theorem eq_directory_of_child? {e child : Entry} {name : String} (h : e.child? name = some child) :
    ∃ entries, e = .directory entries ∧ entries.lookup name = some child := by
  cases e with
  | file => cases h
  | link => cases h
  | directory entries => exact ⟨entries, rfl, h⟩

theorem mem_of_child? {e child : Entry} {name : String} (h : e.child? name = some child) :
    (name, child) ∈ e.entries := by
  obtain ⟨before, after, hsplit, -⟩ := List.lookup_eq_some_iff.1 h
  rw [hsplit]
  simp

theorem get?_append (e : Entry) (front back : Location) :
    e.get? (front ++ back) = (e.get? front).bind (·.get? back) := by
  induction front generalizing e with
  | nil => rfl
  | cons name front ih =>
    rw [List.cons_append, get?, get?, Option.bind_assoc]
    exact congrArg _ (funext ih)

theorem get?_concat (e : Entry) (front : Location) (name : String) :
    e.get? (front ++ [name]) = (e.get? front).bind (·.child? name) := by
  rw [get?_append]
  exact congrArg _ (funext fun child => Option.bind_fun_some _)

/-- Every directory gives its entries proper names, each to one of them. -/
def WellNamed (e : Entry) : Prop :=
  ∀ location entries, e.get? location = some (.directory entries) →
    (entries.map (·.1)).Nodup ∧ ∀ entry ∈ entries, IsName entry.1

theorem WellNamed.nodup {e : Entry} (h : e.WellNamed) : (e.entries.map (·.1)).Nodup := by
  cases e with
  | directory entries => exact (h [] entries rfl).1
  | file => exact List.nodup_nil
  | link => exact List.nodup_nil

theorem WellNamed.isName {e child : Entry} (h : e.WellNamed) {location : Location}
    (hget : e.get? location = some child) : ∀ name ∈ location, IsName name := by
  intro name hname
  obtain ⟨front, back, rfl⟩ := List.append_of_mem hname
  rw [get?_append] at hget
  obtain ⟨parent, hparent, hrest⟩ := Option.bind_eq_some_iff.1 hget
  rw [get?] at hrest
  obtain ⟨found, hfound, -⟩ := Option.bind_eq_some_iff.1 hrest
  obtain ⟨entries, rfl, -⟩ := eq_directory_of_child? hfound
  exact (h front entries hparent).2 (name, found) (mem_of_child? hfound)

/-- Neither the entry nor anything below it is a link. -/
def LinkFree (e : Entry) : Prop :=
  ∀ location child, e.get? location = some child → child.isLink = false

theorem get?_cons {e child : Entry} {name : String} (h : e.child? name = some child) (rest : Location) :
    e.get? (name :: rest) = child.get? rest := by
  rw [get?, h, Option.bind_some]

theorem WellNamed.child {e child : Entry} {name : String} (h : e.WellNamed) (hchild : e.child? name = some child) :
    child.WellNamed := by
  intro location entries hget
  exact h (name :: location) entries (get?_cons hchild location ▸ hget)

theorem height_le_heightOfAll {entry : String × Entry} {entries : List (String × Entry)} (h : entry ∈ entries) :
    entry.2.height ≤ heightOfAll entries := by
  induction entries with
  | nil => cases h
  | cons first rest ih =>
    rw [heightOfAll, heightOfPair]
    rcases List.mem_cons.1 h with rfl | h
    · exact Nat.le_max_left _ _
    · exact Nat.le_trans (ih h) (Nat.le_max_right _ _)

theorem height_child {e child : Entry} {name : String} (h : e.child? name = some child) :
    child.height < e.height := by
  obtain ⟨entries, rfl, -⟩ := eq_directory_of_child? h
  rw [height]
  exact Nat.lt_succ_of_le (height_le_heightOfAll (mem_of_child? h))

theorem length_le_height {e child : Entry} {location : Location}
    (h : e.get? location = some child) : location.length ≤ e.height := by
  induction location generalizing e with
  | nil => exact Nat.zero_le _
  | cons name rest ih =>
    rw [get?] at h
    obtain ⟨next, hnext, hrest⟩ := Option.bind_eq_some_iff.1 h
    exact Nat.succ_le_of_lt (Nat.lt_of_le_of_lt (ih hrest) (height_child hnext))

theorem height_get? {e child : Entry} {location : Location}
    (h : e.get? location = some child) : child.height ≤ e.height := by
  induction location generalizing e with
  | nil =>
    cases h
    exact Nat.le_refl _
  | cons name rest ih =>
    rw [get?] at h
    obtain ⟨next, hnext, hrest⟩ := Option.bind_eq_some_iff.1 h
    exact Nat.le_trans (ih hrest) (Nat.le_of_lt (height_child hnext))

mutual

/-- Whether all names are proper ones, each once in its directory, and no link
is there. -/
def isPlain : Entry → Bool
  | .file _ => true
  | .link _ => false
  | .directory entries => decide (entries.map (·.1)).Nodup && arePlain entries

def arePlain : List (String × Entry) → Bool
  | [] => true
  | entry :: rest => isPlainPair entry && arePlain rest

def isPlainPair : String × Entry → Bool
  | (name, e) => decide (IsName name) && e.isPlain

end

theorem arePlain_iff (entries : List (String × Entry)) :
    arePlain entries = true ↔ ∀ entry ∈ entries, IsName entry.1 ∧ entry.2.isPlain = true := by
  induction entries with
  | nil => simp [arePlain]
  | cons entry rest ih =>
    rw [arePlain, isPlainPair, List.forall_mem_cons, Bool.and_eq_true, Bool.and_eq_true, decide_eq_true_eq, ih]

theorem isPlain_get? {e child : Entry} {location : Location} (h : e.isPlain = true)
    (hget : e.get? location = some child) : child.isPlain = true := by
  induction location generalizing e with
  | nil =>
    cases hget
    exact h
  | cons name rest ih =>
    rw [get?] at hget
    obtain ⟨next, hnext, hrest⟩ := Option.bind_eq_some_iff.1 hget
    obtain ⟨entries, rfl, -⟩ := eq_directory_of_child? hnext
    rw [isPlain, Bool.and_eq_true, arePlain_iff] at h
    exact ih (h.2 (name, next) (mem_of_child? hnext)).2 hrest

theorem wellNamed_of_isPlain {e : Entry} (h : e.isPlain = true) : e.WellNamed := by
  intro location entries hget
  have hplain := isPlain_get? h hget
  rw [isPlain, Bool.and_eq_true, decide_eq_true_eq, arePlain_iff] at hplain
  exact ⟨hplain.1, fun entry hentry => (hplain.2 entry hentry).1⟩

theorem linkFree_of_isPlain {e : Entry} (h : e.isPlain = true) : e.LinkFree := by
  intro location child hget
  have hplain := isPlain_get? h hget
  cases child with
  | file => rfl
  | link => cases hplain
  | directory => rfl

end Entry

/-! ## Resolution -/

namespace FileSystem

variable {fs : FileSystem}

/-- Something stands at the location, and it is no link. -/
def Real (fs : FileSystem) (location : Location) : Prop :=
  ∃ e, fs.root.get? location = some e ∧ e.isLink = false

/-- A link has nothing below it. -/
theorem Real.front {front back : Location} (h : fs.Real (front ++ back)) : fs.Real front := by
  obtain ⟨e, hget, hlink⟩ := h
  rw [Entry.get?_append] at hget
  obtain ⟨parent, hparent, hrest⟩ := Option.bind_eq_some_iff.1 hget
  refine ⟨parent, hparent, ?_⟩
  cases back with
  | nil =>
    cases hrest
    exact hlink
  | cons name back =>
    rw [Entry.get?] at hrest
    obtain ⟨child, hchild, -⟩ := Option.bind_eq_some_iff.1 hrest
    obtain ⟨entries, rfl, -⟩ := Entry.eq_directory_of_child? hchild
    rfl

/-- A file system that a machine can have. -/
structure Proper (fs : FileSystem) : Prop where
  rooted : fs.root.isDirectory = true
  wellNamed : fs.root.WellNamed

/-- Whether a directory on the way from `here` by these names is closed. -/
def isBarred (fs : FileSystem) (here : Location) : List String → Bool
  | [] => false
  | name :: names => fs.closed.contains here || fs.isBarred (here ++ [name]) names

theorem isBarred_eq_false (h : fs.closed = []) (here : Location) (names : List String) :
    fs.isBarred here names = false := by
  induction names generalizing here with
  | nil => rfl
  | cons name names ih => rw [isBarred, h, ih, List.contains_nil, Bool.or_false]

/-- Following proper names leads down by these names, through open directories. -/
theorem resolveFrom_append (links : Nat) (more : List String) {here names : Location}
    (hreal : fs.Real (here ++ names)) (hnames : ∀ name ∈ names, IsName name) :
    fs.resolveFrom links here (names ++ more) =
      if fs.isBarred here names then .error .permissionDenied else fs.resolveFrom links (here ++ names) more := by
  induction names generalizing here with
  | nil => rw [List.append_nil, List.nil_append, isBarred, if_neg Bool.false_ne_true]
  | cons name names ih =>
    rw [List.forall_mem_cons] at hnames
    have hsplit : here ++ name :: names = here ++ [name] ++ names := by simp
    rw [hsplit] at hreal ⊢
    have hlater := ih hreal hnames.2
    obtain ⟨e, hget, hlink⟩ := hreal.front
    rw [Entry.get?_concat] at hget
    obtain ⟨parent, hparent, hchild⟩ := Option.bind_eq_some_iff.1 hget
    obtain ⟨entries, rfl, hlookup⟩ := Entry.eq_directory_of_child? hchild
    rw [List.cons_append, resolveFrom, hparent, isBarred]
    by_cases hclosed : here ∈ fs.closed
    · simp [hclosed]
    simp only [hclosed, hnames.1.notDot, hnames.1.notDots, Nat.not_lt.2 hnames.1.short, ↓reduceIte, hlookup,
      List.contains_eq_mem, decide_false, Bool.false_or, ← hlater]
    cases e with
    | file => rfl
    | link => cases hlink
    | directory => rfl

theorem fits_of_resolve {path : Path} {location : Location} (h : fs.resolve path = .ok location) :
    path.text.utf8ByteSize ≤ maxPathBytes := by
  by_contra hlong
  rw [resolve] at h
  simp only [Nat.not_le.1 hlong, ↓reduceIte] at h
  split at h
  · cases h
  · split at h <;> cases h

/-- Whatever is asked of a path, an answer means that the path leads somewhere. -/
theorem exists_resolve_of_bind {α : Type} {path : Path} {ask : Location → Except IoFailure α} {answer : α}
    (h : fs.resolve path >>= ask = .ok answer) : ∃ there, fs.resolve path = .ok there ∧ ask there = .ok answer := by
  cases hresolve : fs.resolve path with
  | ok there =>
    rw [hresolve] at h
    exact ⟨there, rfl, h⟩
  | error =>
    rw [hresolve] at h
    cases h

theorem fits_of_readText {path : Path} {text : String} (h : fs.readText path = .ok text) :
    path.text.utf8ByteSize ≤ maxPathBytes := by
  obtain ⟨there, hthere, -⟩ := exists_resolve_of_bind h
  exact fits_of_resolve hthere

/-- A directory whose names are known may be listed. -/
theorem exists_listed_of_names {path : Path} {names : List String} (h : fs.names path = .ok names) :
    ∃ there, fs.resolve path = .ok there ∧ there ∉ fs.unreadable := by
  obtain ⟨there, hthere, hnames⟩ := exists_resolve_of_bind h
  refine ⟨there, hthere, fun hdenied => ?_⟩
  split at hnames
  · rw [if_pos hdenied] at hnames
    cases hnames
  · cases hnames

/-- The path of a location is resolved by following its names from the root. -/
theorem resolve_pathOf (h : ∀ name ∈ location, IsName name)
    (hfits : (pathOf location).text.utf8ByteSize ≤ maxPathBytes) :
    fs.resolve (pathOf location) =
      (fs.resolveFrom maxLinks [] (if location = [] then ["."] else location)).mapError .system := by
  have hnul : (pathOf location).text.toList.contains '\x00' = false := by
    simpa using nul_not_mem_pathOf h
  rw [resolve, hnul]
  simp only [Bool.false_eq_true, text_pathOf_ne, Nat.not_lt.2 hfits, isAbsolute_pathOf, ↓reduceIte, requests_pathOf h]

/-- A location with a short path is where its path leads, if it leads anywhere. -/
theorem Proper.resolve_pathOf (hfs : fs.Proper) (hreal : fs.Real location)
    (hfits : (pathOf location).text.utf8ByteSize ≤ maxPathBytes) :
    fs.resolve (pathOf location) =
      if fs.isBarred [] (if location = [] then ["."] else location) then .error (.system .permissionDenied)
      else .ok location := by
  have ⟨e, hget, _⟩ := hreal
  have hnames := hfs.wellNamed.isName hget
  rw [FileSystem.resolve_pathOf hnames hfits]
  by_cases hne : location = []
  · subst hne
    obtain ⟨entries, hroot⟩ : ∃ entries, fs.root = .directory entries := by
      have hrooted := hfs.rooted
      cases hroot : fs.root with
      | directory entries => exact ⟨entries, rfl⟩
      | link => simp [hroot, Entry.isDirectory] at hrooted
      | file => simp [hroot, Entry.isDirectory] at hrooted
    rw [if_pos rfl, resolveFrom, Entry.get?, hroot, isBarred, isBarred, Bool.or_false]
    by_cases hclosed : [] ∈ fs.closed
    · simp [hclosed, Except.mapError]
    · simp [hclosed, resolveFrom, Except.mapError]
  · have hdown := resolveFrom_append maxLinks [] (show fs.Real ([] ++ location) from hreal) hnames
    rw [List.append_nil, List.nil_append, resolveFrom] at hdown
    rw [if_neg hne, hdown]
    split <;> rfl

theorem Proper.eq_of_resolve (hfs : fs.Proper) (hreal : fs.Real location) {there : Location}
    (h : fs.resolve (pathOf location) = .ok there) : there = location := by
  rw [hfs.resolve_pathOf hreal (fits_of_resolve h)] at h
  generalize fs.isBarred [] _ = barred at h
  cases barred with
  | true => cases h
  | false =>
    cases h
    rfl

/-! ## Readable trees -/

/-- A tree in which every entry can be asked for under its own path, and every
directory can be listed. -/
structure Readable (fs : FileSystem) (location : Location) (e : Entry) : Prop where
  found : fs.root.get? location = some e
  linkFree : e.LinkFree
  resolves : ∀ below, (e.get? below).isSome = true → ∃ there, fs.resolve (pathOf (location ++ below)) = .ok there
  listable : ∀ below entries, e.get? below = some (.directory entries) → location ++ below ∉ fs.unreadable

/-- Where few directories lie inside each other, there are no links and at most
files are unreadable, every tree is readable. -/
theorem Proper.readable_of_shallow (hfs : fs.Proper) (hlinks : fs.root.LinkFree) (hheight : fs.root.height ≤ 15)
    (hfiles : ∀ denied ∈ fs.unreadable, (fs.root.get? denied).any (·.isDirectory) = false) (hclosed : fs.closed = [])
    {e : Entry} (h : fs.root.get? location = some e) : fs.Readable location e := by
  have hget : ∀ below, fs.root.get? (location ++ below) = e.get? below := by
    intro below
    rw [Entry.get?_append, h, Option.bind_some]
  refine ⟨h, fun below child hchild => ?_, fun below hbelow => ?_, fun below entries hentries hdenied => ?_⟩
  · exact hlinks (location ++ below) child ((hget below).trans hchild)
  · obtain ⟨child, hchild⟩ := Option.isSome_iff_exists.1 hbelow
    rw [← hget below] at hchild
    have hlength := Entry.length_le_height hchild
    have hsize := utf8ByteSize_pathOf_le (hfs.wellNamed.isName hchild)
    unfold maxNameBytes at hsize
    refine ⟨_, (hfs.resolve_pathOf ⟨child, hchild, hlinks _ _ hchild⟩ ?_).trans
      (if_neg (by simp [isBarred_eq_false hclosed]))⟩
    unfold maxPathBytes
    omega
  · have hfile := hfiles _ hdenied
    rw [hget, hentries] at hfile
    cases hfile

namespace Readable

variable {e : Entry} {name : String} {entries : List (String × Entry)}

/-- It is enough that every entry has a path that leads somewhere, and that the
names in every directory are known. -/
theorem of_names (hfs : fs.Proper) (hfound : fs.root.get? location = some e) (hlinks : e.LinkFree)
    (hpaths : ∀ below, (e.get? below).isSome = true → ∃ there, fs.resolve (pathOf (location ++ below)) = .ok there)
    (hnames : ∀ below entries, e.get? below = some (.directory entries) →
      ∃ names, fs.names (pathOf (location ++ below)) = .ok names) : fs.Readable location e where
  found := hfound
  linkFree := hlinks
  resolves := hpaths
  listable below entries hentries := by
    obtain ⟨names, hnames⟩ := hnames below entries hentries
    obtain ⟨there, hthere, hmay⟩ := exists_listed_of_names hnames
    have hreal : fs.Real (location ++ below) :=
      ⟨_, by rw [Entry.get?_append, hfound, Option.bind_some, hentries], rfl⟩
    rwa [hfs.eq_of_resolve hreal hthere] at hmay

theorem isName (h : fs.Readable location e) (hfs : fs.Proper) : ∀ name ∈ location, IsName name :=
  hfs.wellNamed.isName h.found

theorem wellNamed (h : fs.Readable location e) (hfs : fs.Proper) : e.WellNamed := by
  intro below entries hget
  refine hfs.wellNamed (location ++ below) entries ?_
  rw [Entry.get?_append, h.found, Option.bind_some, hget]

theorem below {below : Location} {child : Entry} (h : fs.Readable location e) (hchild : e.get? below = some child) :
    fs.Readable (location ++ below) child where
  found := by rw [Entry.get?_append, h.found, Option.bind_some, hchild]
  linkFree rest found hfound := h.linkFree (below ++ rest) found (by rwa [Entry.get?_append, hchild, Option.bind_some])
  resolves rest hrest := by
    rw [List.append_assoc]
    exact h.resolves (below ++ rest) (by rwa [Entry.get?_append, hchild, Option.bind_some])
  listable rest entries hrest := by
    rw [List.append_assoc]
    exact h.listable (below ++ rest) entries (by rwa [Entry.get?_append, hchild, Option.bind_some])

theorem child {child : Entry} (h : fs.Readable location e) (hchild : e.child? name = some child) :
    fs.Readable (location ++ [name]) child :=
  h.below (Entry.get?_cons hchild [])

theorem resolve (h : fs.Readable location e) (hfs : fs.Proper) : fs.resolve (pathOf location) = .ok location := by
  obtain ⟨there, hthere⟩ := h.resolves [] rfl
  rw [List.append_nil] at hthere
  rw [hthere, hfs.eq_of_resolve ⟨e, h.found, h.linkFree [] e rfl⟩ hthere]

theorem find? (h : fs.Readable location e) (hfs : fs.Proper) : fs.find? (pathOf location) = some e := by
  rw [FileSystem.find?, h.resolve hfs]
  exact h.found

theorem not_unreadable (h : fs.Readable location (.directory entries)) : location ∉ fs.unreadable := by
  simpa using h.listable [] entries rfl

theorem names (h : fs.Readable location (.directory entries)) (hfs : fs.Proper) :
    fs.names (pathOf location) = .ok (entries.map (·.1)) := by
  simp only [FileSystem.names, h.resolve hfs, bind, Except.bind, h.found, h.not_unreadable, ↓reduceIte]

theorem readText {content : ByteArray} {text : String} (h : fs.Readable location (.file content)) (hfs : fs.Proper)
    (hmay : location ∉ fs.unreadable) (htext : String.fromUTF8? content = some text) :
    fs.readText (pathOf location) = .ok text := by
  simp only [FileSystem.readText, h.resolve hfs, bind, Except.bind, h.found, hmay, ↓reduceIte, htext]

/-- A directory has no text. -/
theorem readText_directory (h : fs.Readable location (.directory entries)) (hfs : fs.Proper) :
    fs.readText (pathOf location) = .error (.system .isDirectory) := by
  simp only [FileSystem.readText, h.resolve hfs, bind, Except.bind, h.found, h.not_unreadable, ↓reduceIte]

/-- Asking for a name in a directory is looking it up there. -/
theorem find?_join (h : fs.Readable location (.directory entries)) (hfs : fs.Proper) (hname : IsName name) :
    fs.find? ((pathOf location).join name) = entries.lookup name := by
  rw [join_pathOf (h.isName hfs)]
  cases hlookup : entries.lookup name with
  | some child => exact (h.child hlookup).find? hfs
  | none =>
    rw [FileSystem.find?]
    cases hresolve : fs.resolve (pathOf (location ++ [name])) with
    | error => rfl
    | ok there =>
      have hnames : ∀ asked ∈ location ++ [name], IsName asked := by
        rw [List.forall_mem_append, List.forall_mem_singleton]
        exact ⟨h.isName hfs, hname⟩
      have hreal : fs.Real ([] ++ location) := ⟨_, h.found, rfl⟩
      rw [resolve_pathOf hnames (fits_of_resolve hresolve), if_neg (by simp),
        resolveFrom_append _ _ hreal (h.isName hfs), List.nil_append, resolveFrom, h.found] at hresolve
      simp only [hname.notDot, hname.notDots, Nat.not_lt.2 hname.short, ↓reduceIte, hlookup] at hresolve
      -- The way ends in a closed directory or in one that has no such name.
      split at hresolve
      · cases hresolve
      · split at hresolve <;> cases hresolve

end Readable

end FileSystem

end SourceModel
