import SourceModel.Workspace.Scan
import SourceModel.Proofs.FileSystem.Location
import SourceModel.Proofs.Workspace.Outlines
/-!
# A scan lists the admitted entries

An entry below the root of a workspace is admitted unless it is hidden, lies
below something hidden, or is or lies in an excluded directory. Of a tree
without links the walk of a scan lists the root and then every admitted entry
once, in the order of path components. `Entry.listed` is that list without file
system and node tree: it has the right members, ascends strictly, and is what
the listing of a readable directory amounts to.
-/

namespace SourceModel

/-! ## Admitted entries -/

/-- Whether a scan takes an entry of a directory it reads. -/
def Config.admits (config : Config) (name : String) (e : Entry) : Bool :=
  !isHidden name && !(e.isDirectory && config.isExcluded name)

/-- An entry below the root of a tree, with nothing hidden and no excluded
directory among the names that lead to it. -/
structure Admitted (config : Config) (tree : Entry) (location : Location) : Prop where
  below : location ≠ []
  present : (tree.get? location).isSome = true
  shown : ∀ name ∈ location, isHidden name = false
  entered : ∀ front name, front ++ [name] <+: location → ∀ entries,
    tree.get? (front ++ [name]) = some (.directory entries) → config.isExcluded name = false

theorem admitted_cons {config : Config} {tree : Entry} {name : String} {rest : Location} :
    Admitted config tree (name :: rest) ↔ ∃ child, tree.child? name = some child ∧
      config.admits name child = true ∧ (rest = [] ∨ Admitted config child rest) := by
  constructor
  · intro h
    obtain ⟨child, hchild⟩ : ∃ child, tree.child? name = some child := by
      have hpresent := h.present
      rw [Entry.get?, Option.isSome_bind] at hpresent
      exact Option.isSome_iff_exists.1 (Option.isSome_of_any hpresent)
    refine ⟨child, hchild, ?_, ?_⟩
    · have hshown := h.shown name List.mem_cons_self
      cases child with
      | file => simp [Config.admits, hshown, Entry.isDirectory]
      | link => simp [Config.admits, hshown, Entry.isDirectory]
      | directory entries =>
        have hentered := h.entered [] name (by simp) entries (Entry.get?_cons hchild [])
        simp [Config.admits, hshown, hentered]
    · refine or_iff_not_imp_left.2 fun hne => ⟨hne, ?_, ?_, ?_⟩
      · exact Entry.get?_cons hchild rest ▸ h.present
      · exact fun other hother => h.shown other (List.mem_cons_of_mem _ hother)
      · intro front other hfront entries hdir
        refine h.entered (name :: front) other ?_ entries ?_
        · simpa using hfront
        · rwa [List.cons_append, Entry.get?_cons hchild]
  · rintro ⟨child, hchild, hadmits, hrest⟩
    simp only [Config.admits, Bool.and_eq_true, Bool.not_eq_true', Bool.and_eq_false_iff] at hadmits
    refine ⟨List.cons_ne_nil _ _, ?_, ?_, ?_⟩
    · rw [Entry.get?_cons hchild]
      rcases hrest with rfl | hrest
      · rfl
      · exact hrest.present
    · refine List.forall_mem_cons.2 ⟨hadmits.1, fun other hother => ?_⟩
      rcases hrest with rfl | hrest
      · cases hother
      · exact hrest.shown other hother
    · intro front other hfront entries hdir
      cases front with
      | nil =>
        obtain ⟨rfl, -⟩ := List.cons_prefix_cons.1 hfront
        rw [List.nil_append, Entry.get?_cons hchild] at hdir
        cases hdir
        simpa [Entry.isDirectory] using hadmits.2
      | cons first front =>
        obtain ⟨rfl, hrest'⟩ := List.cons_prefix_cons.1 hfront
        rw [List.cons_append, Entry.get?_cons hchild] at hdir
        rcases hrest with rfl | hrest
        · simp at hrest'
        · exact hrest.entered front other hrest' entries hdir

/-! ## The list -/

/-- What is listed under one name of a directory: the entry, and behind it what
is listed below. -/
def Config.branch (config : Config) (below : Entry → List Location) (e : Entry) (name : String) : List Location :=
  match e.child? name with
  | none => []
  | some child => if config.admits name child then [name] :: (below child).map (name :: ·) else []

theorem Config.branch_eq {config : Config} {e child : Entry} {name : String} (h : e.child? name = some child)
    (below : Entry → List Location) : config.branch below e name =
      if config.admits name child then [name] :: (below child).map (name :: ·) else [] := by
  rw [branch, h]

theorem Config.mem_branch {config : Config} {below : Entry → List Location} {e : Entry} {name : String}
    {location : Location} : location ∈ config.branch below e name ↔
      ∃ child, e.child? name = some child ∧ config.admits name child = true ∧
        ∃ rest, location = name :: rest ∧ (rest = [] ∨ rest ∈ below child) := by
  cases hchild : e.child? name with
  | none => simp [branch, hchild]
  | some child =>
    rw [branch_eq hchild]
    by_cases hadmits : config.admits name child = true
    · rw [if_pos hadmits, List.mem_cons, List.mem_map]
      constructor
      · rintro (rfl | ⟨rest, hrest, rfl⟩)
        · exact ⟨child, rfl, hadmits, [], rfl, .inl rfl⟩
        · exact ⟨child, rfl, hadmits, rest, rfl, .inr hrest⟩
      · rintro ⟨_, ⟨⟩, -, rest, rfl, rfl | hrest⟩
        · exact .inl rfl
        · exact .inr ⟨rest, hrest, rfl⟩
    · rw [if_neg hadmits]
      refine iff_of_false List.not_mem_nil ?_
      rintro ⟨_, ⟨⟩, hadmits', -⟩
      exact hadmits hadmits'

namespace Entry

variable {config : Config} {depth : Nat} {e child : Entry} {name : String}

/-- The names in a directory, in ascending order. -/
def sortedNames (e : Entry) : List String :=
  (e.entries.map (·.1)).mergeSort (· ≤ ·)

/-- The admitted entries below this one down to `depth` directories: name by
name, and behind each name what lies below it. -/
def listed (config : Config) : Nat → Entry → List Location
  | 0, _ => []
  | depth + 1, e => e.sortedNames.flatMap (config.branch (listed config depth) e)

theorem mem_sortedNames : name ∈ e.sortedNames ↔ ∃ child, e.child? name = some child := by
  rw [sortedNames, (List.mergeSort_perm _ _).mem_iff, ← Option.isSome_iff_exists, child?, List.lookup_isSome_iff,
    List.mem_map]
  simp only [beq_iff_eq, @eq_comm _ name]

theorem mem_listed_succ {location : Location} : location ∈ e.listed config (depth + 1) ↔
    ∃ name, location ∈ config.branch (listed config depth) e name := by
  rw [listed, List.mem_flatMap]
  constructor
  · rintro ⟨name, -, hmem⟩
    exact ⟨name, hmem⟩
  · rintro ⟨name, hmem⟩
    obtain ⟨child, hchild, -⟩ := Config.mem_branch.1 hmem
    exact ⟨name, mem_sortedNames.2 ⟨child, hchild⟩, hmem⟩

/-! ## Its members -/

/-- A depth that reaches to the bottom lists all that is admitted. -/
theorem mem_listed (h : e.height ≤ depth) {location : Location} :
    location ∈ e.listed config depth ↔ Admitted config e location := by
  induction depth generalizing e location with
  | zero =>
    refine iff_of_false List.not_mem_nil fun hadmitted => ?_
    obtain ⟨name, rest, rfl⟩ := List.exists_cons_of_ne_nil hadmitted.below
    obtain ⟨child, hchild, -⟩ := admitted_cons.1 hadmitted
    have := height_child hchild
    omega
  | succ depth ih =>
    have hbelow : ∀ {name child}, e.child? name = some child → child.height ≤ depth :=
      fun hchild => Nat.le_of_lt_succ (Nat.lt_of_lt_of_le (height_child hchild) h)
    rw [mem_listed_succ]
    constructor
    · rintro ⟨name, hmem⟩
      obtain ⟨child, hchild, hadmits, rest, rfl, hrest⟩ := Config.mem_branch.1 hmem
      rw [ih (hbelow hchild)] at hrest
      exact admitted_cons.2 ⟨child, hchild, hadmits, hrest⟩
    · intro hadmitted
      obtain ⟨name, rest, rfl⟩ := List.exists_cons_of_ne_nil hadmitted.below
      obtain ⟨child, hchild, hadmits, hrest⟩ := admitted_cons.1 hadmitted
      rw [← ih (hbelow hchild)] at hrest
      exact ⟨name, Config.mem_branch.2 ⟨child, hchild, hadmits, rest, rfl, hrest⟩⟩

/-! ## Its order -/

mutual

/-- How many entries lie below this one. -/
def countBelow : Entry → Nat
  | .file _ => 0
  | .link _ => 0
  | .directory entries => countInAll entries

def countInAll : List (String × Entry) → Nat
  | [] => 0
  | entry :: rest => countOfPair entry + countInAll rest

def countOfPair : String × Entry → Nat
  | (_, e) => e.countBelow + 1

end

theorem countBelow_eq (e : Entry) : e.countBelow = countInAll e.entries := by
  cases e <;> rfl

theorem length_flatMap_le {f : String → List Location} {entries : List (String × Entry)}
    (h : ∀ entry ∈ entries, (f entry.1).length ≤ entry.2.countBelow + 1) :
    ((entries.map (·.1)).flatMap f).length ≤ countInAll entries := by
  induction entries with
  | nil => exact Nat.zero_le _
  | cons entry rest ih =>
    rw [List.forall_mem_cons] at h
    rw [List.map_cons, List.flatMap_cons, List.length_append, countInAll, countOfPair]
    exact Nat.add_le_add h.1 (ih h.2)

theorem child?_of_mem (h : e.WellNamed) {entry : String × Entry} (hmem : entry ∈ e.entries) :
    e.child? entry.1 = some entry.2 := by
  have hnodup := h.nodup
  obtain ⟨before, after, hsplit⟩ := List.append_of_mem hmem
  refine List.lookup_eq_some_iff.2 ⟨before, after, hsplit, fun other hother => ?_⟩
  rw [hsplit, List.map_append, List.map_cons, List.nodup_append] at hnodup
  simpa using (hnodup.2.2 other.1 (List.mem_map_of_mem hother) entry.1 List.mem_cons_self).symm

/-- No more is listed than is there. -/
theorem length_listed_le (h : e.WellNamed) : (e.listed config depth).length ≤ e.countBelow := by
  induction depth generalizing e with
  | zero => exact Nat.zero_le _
  | succ depth ih =>
    have hperm := (List.mergeSort_perm (e.entries.map (·.1)) (· ≤ ·)).flatMap_right
      (config.branch (listed config depth) e)
    rw [listed, sortedNames, hperm.length_eq, countBelow_eq]
    refine length_flatMap_le fun entry hentry => ?_
    have hchild := child?_of_mem h hentry
    have hbelow := ih (h.child hchild)
    rw [Config.branch_eq hchild]
    split
    · simpa using hbelow
    · exact Nat.zero_le _

end Entry

/-! ## Listings -/

namespace Outline

theorem pathsInAll_append (front back : List Outline) :
    pathsInAll (front ++ back) = pathsInAll front ++ pathsInAll back := by
  induction front with
  | nil => rfl
  | cons outline front ih => rw [List.cons_append, pathsInAll, ih, pathsInAll, List.append_assoc]

theorem projectsInAll_append (front back : List Outline) :
    projectsInAll (front ++ back) = projectsInAll front + projectsInAll back := by
  induction front with
  | nil => rw [List.nil_append, projectsInAll, Nat.zero_add]
  | cons outline front ih => rw [List.cons_append, projectsInAll, ih, projectsInAll, Nat.add_assoc]

end Outline

/-- Whether a directory below an entry holds the marker of a project. -/
def Entry.isProjectAt (e : Entry) (location : Location) : Bool :=
  match e.get? (location ++ [projectMarker]) with
  | some (.file _) => true
  | _ => false

theorem Entry.isProjectAt_cons {e child : Entry} {name : String} (h : e.child? name = some child) (rest : Location) :
    e.isProjectAt (name :: rest) = child.isProjectAt rest := by
  rw [isProjectAt, List.cons_append, get?_cons h, isProjectAt]

namespace Listing

open FileSystem (pathOf)

/-- The listing of an entry lists these locations below it, and leaves nothing
unread. -/
structure Shows (l : Listing) (location : Location) (e : Entry) (below : List Location) : Prop where
  skipped : l.skipped = []
  paths : Outline.pathsInAll l.outlines = below.map fun rest => pathOf (location ++ rest)
  projects : Outline.projectsInAll l.outlines = below.countP e.isProjectAt

namespace Shows

variable {l l' : Listing} {location : Location} {e child : Entry} {below below' : List Location} {name : String}

theorem nil : Shows {} location e [] :=
  ⟨rfl, rfl, rfl⟩

theorem append (h : l.Shows location e below) (h' : l'.Shows location e below') :
    (l.append l').Shows location e (below ++ below') where
  skipped := by rw [Listing.append, h.skipped, h'.skipped, List.append_nil]
  paths := by rw [Listing.append, Outline.pathsInAll_append, h.paths, h'.paths, List.map_append]
  projects := by rw [Listing.append, Outline.projectsInAll_append, h.projects, h'.projects, List.countP_append]

theorem gather {names : List String} {entry : String → Listing} {below : String → List Location}
    (h : ∀ name ∈ names, (entry name).Shows location e (below name)) :
    (Listing.gather names entry).Shows location e (names.flatMap below) := by
  induction names with
  | nil => exact .nil
  | cons name names ih =>
    rw [List.forall_mem_cons] at h
    exact h.1.append (ih h.2)

/-- The listing of a directory below, hung under an item of its own. -/
theorem hang (h : l.Shows (location ++ [name]) child below) (hchild : e.child? name = some child) :
    Shows { l with outlines := [if e.isProjectAt [name] then .project (pathOf (location ++ [name])) l.outlines
      else .item (pathOf (location ++ [name])) l.outlines] } location e ([name] :: below.map (name :: ·)) where
  skipped := h.skipped
  paths := by
    have hrest : (below.map (name :: ·)).map (fun rest => pathOf (location ++ rest)) =
        Outline.pathsInAll l.outlines := by
      rw [h.paths, List.map_map]
      exact List.map_congr_left fun rest _ => by simp
    rw [List.map_cons, hrest]
    split <;> simp [Outline.pathsInAll, Outline.paths]
  projects := by
    have hrest : (below.map (name :: ·)).countP e.isProjectAt = Outline.projectsInAll l.outlines := by
      rw [h.projects, List.countP_map]
      exact List.countP_congr fun rest _ => by rw [Function.comp_apply, Entry.isProjectAt_cons hchild]
    rw [List.countP_cons, hrest]
    split <;> simp_all [Outline.projectsInAll, Outline.projects]

end Shows

end Listing

theorem isName_projectMarker : IsName projectMarker := by
  decide

theorem Entry.listed_file (config : Config) (depth : Nat) (content : ByteArray) :
    (Entry.file content).listed config depth = [] := by
  cases depth with
  | zero => rfl
  | succ depth => simp [listed, sortedNames, entries]

/-- The listing of a readable directory is what is listed of the tree there. -/
theorem FileSystem.Readable.shows_listing {fs : FileSystem} (hfs : fs.Proper) {location : Location} {e : Entry}
    (h : fs.Readable location e) (hdir : e.isDirectory = true) (config : Config) (depth : Nat) :
    (fs.listing config depth (pathOf location)).Shows location e (e.listed config depth) := by
  induction depth generalizing location e with
  | zero => exact .nil
  | succ depth ih =>
    cases e with
    | file => cases hdir
    | link => cases hdir
    | directory entries =>
      rw [listing, h.names hfs, Entry.listed]
      refine .gather fun name hname => ?_
      obtain ⟨child, hchild⟩ : ∃ child, (Entry.directory entries).child? name = some child :=
        Entry.mem_sortedNames.1 hname
      have hbelow := h.child hchild
      have hjoin := join_pathOf (h.isName hfs) name
      have hfind := hbelow.find? hfs
      rw [Config.branch_eq hchild, Config.admits, hjoin]
      by_cases hhidden : isHidden name = true
      · simpa [hhidden] using Listing.Shows.nil
      cases child with
      | link => exact absurd (hbelow.linkFree [] _ rfl) (by simp [Entry.isLink])
      | file content =>
        have hproject : (Entry.directory entries).isProjectAt [name] = false := by
          rw [Entry.isProjectAt_cons hchild]
          rfl
        have hhang := (Listing.Shows.nil : Listing.Shows {} (location ++ [name]) _ []).hang hchild
        simpa [hhidden, isDirectory, isFile, hfind, Entry.isDirectory, Entry.listed_file, hproject] using hhang
      | directory inner =>
        have hhang := (ih hbelow rfl).hang hchild
        have hproject : fs.isFile ((pathOf (location ++ [name])).join projectMarker) =
            (Entry.directory entries).isProjectAt [name] := by
          rw [isFile, hbelow.find?_join hfs isName_projectMarker, Entry.isProjectAt_cons hchild,
            Entry.isProjectAt, Entry.get?_concat]
          rfl
        simp only [hhidden, isDirectory, hfind, Option.any_some, Entry.isDirectory, hproject]
        by_cases hexcluded : config.isExcluded name = true
        · simpa [hexcluded] using Listing.Shows.nil
        · by_cases hmarked : (Entry.directory entries).isProjectAt [name] = true <;>
            simpa [hexcluded, hmarked] using hhang

/-! ## Choosing the projects -/

namespace Outline

mutual

/-- The same items, with another choice of the projects among them. -/
def relabel (isProject : Path → Bool) : Outline → Outline
  | .item path below | .project path below =>
    if isProject path then .project path (relabelAll isProject below) else .item path (relabelAll isProject below)

def relabelAll (isProject : Path → Bool) : List Outline → List Outline
  | [] => []
  | outline :: rest => relabel isProject outline :: relabelAll isProject rest

end

mutual

theorem paths_relabel (isProject : Path → Bool) :
    ∀ outline : Outline, (relabel isProject outline).paths = outline.paths
  | .item path below | .project path below => by
    rw [relabel]
    split <;> rw [paths, paths, pathsInAll_relabelAll isProject below]

theorem pathsInAll_relabelAll (isProject : Path → Bool) :
    ∀ outlines : List Outline, pathsInAll (relabelAll isProject outlines) = pathsInAll outlines
  | [] => rfl
  | outline :: rest => by
    rw [relabelAll, pathsInAll, paths_relabel isProject outline, pathsInAll_relabelAll isProject rest, pathsInAll]

end

end Outline

/-! ## Scans -/

/-- A scan is deep enough for every directory. -/
theorem FileSystem.height_le_maxDepth {fs : FileSystem} {base : Location} {tree : Entry} (h : fs.root.get? base = some tree) :
    tree.height ≤ fs.maxDepth :=
  calc tree.height ≤ fs.root.height := Entry.height_get? h
    _ ≤ fs.root.height + 1 := Nat.le_succ _
    _ ≤ fs.maxDepth := Nat.le_mul_of_pos_right _ (by decide)

namespace Scan

open FileSystem (pathOf)

/-- The scan of a readable directory is its listing. -/
theorem run_eq {fs : FileSystem} (hfs : fs.Proper) (config : Config) {root : Path} {base : Location} {tree : Entry}
    (hroot : fs.resolve root = .ok base) (h : fs.Readable base tree) (hdir : tree.isDirectory = true) :
    Scan.run fs config root = .ok ⟨pathOf base, fs.listing config fs.maxDepth (pathOf base)⟩ := by
  have hisDir : fs.isDirectory (pathOf base) = true := by
    rw [FileSystem.isDirectory, h.find? hfs]
    exact hdir
  simp only [Scan.run, FileSystem.canonical, hroot, Except.map, Except.mapError, bind, Except.bind, hisDir, ↓reduceIte]

/-- A readable directory with few entries below it can be scanned. The tree of the
scan has room for what is listed, and its walk is the root and then that. -/
theorem exists_scan {fs : FileSystem} (hfs : fs.Proper) (config : Config) {root : Path} {base : Location}
    {tree : Entry} (hroot : fs.resolve root = .ok base) (h : fs.Readable base tree) (hdir : tree.isDirectory = true)
    (hfew : tree.countBelow < 0xFFFFFFFE) :
    ∃ scan, Scan.run fs config root = .ok scan ∧ scan.root = pathOf base ∧
      scan.listing.Shows base tree (tree.listed config fs.maxDepth) ∧
      (Outline.pathsInAll scan.listing.outlines).length < 0xFFFFFFFE ∧
      (∃ fuel, scan.tree.view.walk? fuel = some scan.visits) ∧
      ∀ accept, Visit.paths scan.visits accept =
        (pathOf base :: (tree.listed config fs.maxDepth).map fun location => pathOf (base ++ location)).filter
          accept := by
  have hshows := h.shows_listing hfs hdir config fs.maxDepth
  have hlength : (Outline.pathsInAll (fs.listing config fs.maxDepth (pathOf base)).outlines).length < 0xFFFFFFFE := by
    rw [hshows.paths, List.length_map]
    exact Nat.lt_of_le_of_lt (Entry.length_listed_le (h.wellNamed hfs)) hfew
  let scan : Scan := ⟨pathOf base, fs.listing config fs.maxDepth (pathOf base)⟩
  obtain ⟨hwalk, hpaths⟩ := scan.walk_visits hlength
  refine ⟨scan, run_eq hfs config hroot h hdir, rfl, hshows, hlength, hwalk, fun accept => ?_⟩
  rw [hpaths, hshows.paths]

end Scan

end SourceModel
