import SourceModel.Project.Basic
import SourceModel.Proofs.FileSystem.Spelling
import SourceModel.Proofs.Hierarchy.Walk
import SourceModel.Proofs.Registration
/-!
# A rebuild merges files that were parsed alone

The files of a project go one after the other into one table. What each of them
leaves there is what it leaves in an empty table: diagnostics and file errors
are appended in walk order, a sum type is that of the first file to declare its
name, and every file that can be read has its own record. `Merges` says so of a
table, `rebuild_merges` of every rebuild.
-/

namespace SourceModel

/-! ## One file -/

/-- The table of a text that is parsed alone. -/
def SymbolTable.ofText (file : Path) (text : String) : SymbolTable :=
  SymbolTable.empty.augment file (Parsing.parseText text)

namespace FileSystem

/-- The diagnostics of a file that is parsed alone; one that cannot be read has
none. -/
def diagnosticsIn (fs : FileSystem) (file : Path) : List Diagnostic :=
  match fs.readText file with
  | .ok text => (SymbolTable.ofText file text).diagnostics
  | .error _ => []

/-- Why a file cannot be read. -/
def errorIn? (fs : FileSystem) (file : Path) : Option FileError :=
  match fs.readText file with
  | .ok _ => none
  | .error failure => some (.ofIo file failure)

/-- The sum type of a name in a file that is parsed alone. -/
def sumTypeIn? (fs : FileSystem) (name : String) (file : Path) : Option SumType :=
  match fs.readText file with
  | .ok text => (SymbolTable.ofText file text).sumTypes.find? name
  | .error _ => none

/-- The record of a file that is parsed alone. -/
def recordIn? (fs : FileSystem) (file : Path) : Option FileRecord :=
  match fs.readText file with
  | .ok text => some ((Parsing.parseText text).record file)
  | .error _ => none

end FileSystem

/-- The table holds what these files leave in empty tables, merged in order. -/
structure SymbolTable.Merges (fs : FileSystem) (sources : List Path) (t : SymbolTable) : Prop where
  diagnostics : t.diagnostics = sources.flatMap fs.diagnosticsIn
  fileErrors : t.fileErrors = sources.filterMap fs.errorIn?
  record : ∀ p ∈ sources, ∀ text, fs.readText p = .ok text → ∀ q : Path, q.components = p.components →
    ∃ r, t.fileRecord? q = some r ∧ r.path.components = p.components ∧
      r.outcome = (Parsing.parseText text).outcome ∧
      r.declarations = (Parsing.parseText text).declarations.length
  noRecord : ∀ q : Path, (∀ p ∈ sources, p.components = q.components → ∀ text, fs.readText p ≠ .ok text) →
    t.fileRecord? q = none
  sumTypes : ∀ name, t.sumTypes.find? name = sources.findSome? (fs.sumTypeIn? name)
  functions : t.functions = .empty
  structures : t.structures = .empty
  strongAliases : t.strongAliases = .empty
  weakAliases : t.weakAliases = .empty
  globals : t.globals = []

/-! ## Adding a file to a table -/

namespace Reading

variable {fs : FileSystem} {file : Path}

theorem addTo_ofFile_ok {text : String} (h : fs.readText file = .ok text) (t : SymbolTable) :
    addTo t (ofFile fs file) =
      (t.augment file (Parsing.parseText text)).registerFile file ((Parsing.parseText text).record file) := by
  simp [addTo, ofFile, h, Except.mapError, Except.map]

theorem addTo_ofFile_error {failure : IoFailure} (h : fs.readText file = .error failure) (t : SymbolTable) :
    addTo t (ofFile fs file) = t.addFileError (.ofIo file failure) := by
  simp [addTo, ofFile, h, Except.mapError, Except.map]

theorem diagnostics_addTo (t : SymbolTable) :
    (addTo t (ofFile fs file)).diagnostics = t.diagnostics ++ fs.diagnosticsIn file := by
  unfold FileSystem.diagnosticsIn
  cases h : fs.readText file with
  | ok text =>
    rw [addTo_ofFile_ok h, SymbolTable.registerFile]
    simp only [SymbolTable.ofText, SymbolTable.augment_eq]
    rfl
  | error failure =>
    rw [addTo_ofFile_error h, SymbolTable.addFileError, List.append_nil]

theorem fileErrors_addTo (t : SymbolTable) :
    (addTo t (ofFile fs file)).fileErrors = t.fileErrors ++ (fs.errorIn? file).toList := by
  unfold FileSystem.errorIn?
  cases h : fs.readText file with
  | ok text =>
    rw [addTo_ofFile_ok h, SymbolTable.registerFile, SymbolTable.augment_eq]
    simp
  | error failure =>
    rw [addTo_ofFile_error h]
    rfl

theorem sumTypes_addTo (t : SymbolTable) (name : String) :
    (addTo t (ofFile fs file)).sumTypes.find? name = (t.sumTypes.find? name).or (fs.sumTypeIn? name file) := by
  unfold FileSystem.sumTypeIn?
  cases h : fs.readText file with
  | ok text =>
    rw [addTo_ofFile_ok h, SymbolTable.registerFile]
    simp only [SymbolTable.ofText, SymbolTable.find?_augment]
    rfl
  | error failure =>
    rw [addTo_ofFile_error h, SymbolTable.addFileError, Option.or_none]

theorem files_addTo (t : SymbolTable) (key : List String) :
    (addTo t (ofFile fs file)).files.find? key =
      if file.components = key then (fs.recordIn? file).or (t.files.find? key) else t.files.find? key := by
  unfold FileSystem.recordIn?
  cases h : fs.readText file with
  | ok text =>
    rw [addTo_ofFile_ok h, SymbolTable.registerFile, SymbolTable.augment_eq, Registry.find?_put]
    simp
  | error failure =>
    rw [addTo_ofFile_error h]
    simp [SymbolTable.addFileError]

/-- Nothing else of a table changes. -/
theorem addTo_frame (t : SymbolTable) (r : Reading) :
    (addTo t r).functions = t.functions ∧ (addTo t r).structures = t.structures ∧
      (addTo t r).strongAliases = t.strongAliases ∧ (addTo t r).weakAliases = t.weakAliases ∧
      (addTo t r).globals = t.globals := by
  unfold addTo
  split
  · rw [SymbolTable.registerFile, SymbolTable.augment_eq]
    exact ⟨rfl, rfl, rfl, rfl, rfl⟩
  · exact ⟨rfl, rfl, rfl, rfl, rfl⟩

end Reading

/-! ## Adding files one after the other -/

namespace Survey

variable (fs : FileSystem) (sources : List Path) (t : SymbolTable)

theorem diagnostics_foldl :
    ((ofFiles fs sources).foldl Reading.addTo t).diagnostics = t.diagnostics ++ sources.flatMap fs.diagnosticsIn := by
  induction sources generalizing t with
  | nil => simp [ofFiles]
  | cons file sources ih =>
    change ((ofFiles fs sources).foldl Reading.addTo (Reading.addTo t (Reading.ofFile fs file))).diagnostics = _
    rw [ih, Reading.diagnostics_addTo, List.append_assoc, List.flatMap_cons]

theorem fileErrors_foldl :
    ((ofFiles fs sources).foldl Reading.addTo t).fileErrors = t.fileErrors ++ sources.filterMap fs.errorIn? := by
  induction sources generalizing t with
  | nil => simp [ofFiles]
  | cons file sources ih =>
    change ((ofFiles fs sources).foldl Reading.addTo (Reading.addTo t (Reading.ofFile fs file))).fileErrors = _
    rw [ih, Reading.fileErrors_addTo, List.append_assoc]
    cases h : fs.errorIn? file <;> simp [h]

/-- The first file to declare a name decides. -/
theorem sumTypes_foldl (name : String) :
    ((ofFiles fs sources).foldl Reading.addTo t).sumTypes.find? name =
      (t.sumTypes.find? name).or (sources.findSome? (fs.sumTypeIn? name)) := by
  induction sources generalizing t with
  | nil => simp [ofFiles]
  | cons file sources ih =>
    change ((ofFiles fs sources).foldl Reading.addTo (Reading.addTo t (Reading.ofFile fs file))).sumTypes.find? name = _
    rw [ih, Reading.sumTypes_addTo, Option.or_assoc]
    cases h : fs.sumTypeIn? name file <;> simp [h]

/-- The last file of the same components that can be read decides. -/
theorem files_foldl (key : List String) :
    ((ofFiles fs sources).foldl Reading.addTo t).files.find? key =
      ((sources.filter (·.components = key)).reverse.findSome? fs.recordIn?).or (t.files.find? key) := by
  induction sources generalizing t with
  | nil => simp [ofFiles]
  | cons file sources ih =>
    change ((ofFiles fs sources).foldl Reading.addTo (Reading.addTo t (Reading.ofFile fs file))).files.find? key = _
    rw [ih, Reading.files_addTo]
    by_cases hkey : file.components = key
    · simp [hkey, List.findSome?_append, Option.or_assoc]
    · simp [hkey]

theorem foldl_frame :
    ((ofFiles fs sources).foldl Reading.addTo t).functions = t.functions ∧
      ((ofFiles fs sources).foldl Reading.addTo t).structures = t.structures ∧
      ((ofFiles fs sources).foldl Reading.addTo t).strongAliases = t.strongAliases ∧
      ((ofFiles fs sources).foldl Reading.addTo t).weakAliases = t.weakAliases ∧
      ((ofFiles fs sources).foldl Reading.addTo t).globals = t.globals := by
  induction sources generalizing t with
  | nil => exact ⟨rfl, rfl, rfl, rfl, rfl⟩
  | cons file sources ih =>
    obtain ⟨hf, hs, hst, hw, hg⟩ := ih (Reading.addTo t (Reading.ofFile fs file))
    obtain ⟨hf', hs', hst', hw', hg'⟩ := Reading.addTo_frame t (Reading.ofFile fs file)
    exact ⟨hf.trans hf', hs.trans hs', hst.trans hst', hw.trans hw', hg.trans hg'⟩

variable {fs sources}

theorem fileRecord?_table (q : Path) :
    (ofFiles fs sources).table.fileRecord? q =
      (sources.filter (·.components = q.components)).reverse.findSome? fs.recordIn? := by
  rw [SymbolTable.fileRecord?, table, files_foldl]
  exact Option.or_none

/-- Files whose paths end in names are merged: two spellings of one path have
the same record. -/
theorem merges_table (hnames : ∀ p ∈ sources, p.EndsInName) : (ofFiles fs sources).table.Merges fs sources := by
  obtain ⟨hfunctions, hstructures, hstrong, hweak, hglobals⟩ := foldl_frame fs sources .empty
  refine ⟨?_, ?_, ?_, ?_, ?_, hfunctions, hstructures, hstrong, hweak, hglobals⟩
  · exact diagnostics_foldl fs sources .empty
  · exact fileErrors_foldl fs sources .empty
  · intro p hp text htext q hq
    rw [fileRecord?_table, hq]
    have hmem : p ∈ (sources.filter (·.components = p.components)).reverse := by simp [hp]
    cases hfound : (sources.filter (·.components = p.components)).reverse.findSome? fs.recordIn? with
    | none =>
      have hnone := List.findSome?_eq_none_iff.1 hfound p hmem
      simp [FileSystem.recordIn?, htext] at hnone
    | some r =>
      obtain ⟨s, hs, hrecord⟩ := List.exists_of_findSome?_eq_some hfound
      obtain ⟨hs, hcomponents⟩ : s ∈ sources ∧ s.components = p.components := by simpa using hs
      unfold FileSystem.recordIn? at hrecord
      cases htext' : fs.readText s with
      | error => simp [htext'] at hrecord
      | ok text' =>
        obtain rfl := FileSystem.readText_eq_of_components (hnames s hs) (hnames p hp) hcomponents htext' htext
        obtain rfl : (Parsing.parseText text').record s = r := by simpa [htext'] using hrecord
        exact ⟨_, rfl, hcomponents, rfl, rfl⟩
  · intro q hq
    rw [fileRecord?_table, List.findSome?_eq_none_iff]
    intro s hs
    obtain ⟨hs, hcomponents⟩ : s ∈ sources ∧ s.components = q.components := by simpa using hs
    unfold FileSystem.recordIn?
    cases htext : fs.readText s with
    | error => rfl
    | ok text => exact absurd htext (hq s hs hcomponents text)
  · intro name
    rw [table, sumTypes_foldl]
    rfl

theorem errors_statistics (fs : FileSystem) (files : List Path) :
    (ofFiles fs files).statistics.errors = files.filterMap fs.errorIn? := by
  rw [statistics, ofFiles, List.filterMap_map]
  refine List.filterMap_congr fun file _ => ?_
  rw [Function.comp_apply, Reading.ofFile, FileSystem.errorIn?]
  cases fs.readText file <;> rfl

theorem document_of_mem_diagnosticsIn {fs : FileSystem} {file : Path} {d : Diagnostic}
    (h : d ∈ fs.diagnosticsIn file) : d.document = file := by
  unfold FileSystem.diagnosticsIn at h
  split at h
  · rw [SymbolTable.ofText, SymbolTable.augment_eq] at h
    exact SymbolTable.document_of_mem (by simpa [SymbolTable.empty] using h)
  · cases h

/-- Where two file systems read the same at a path, however it is spelled, its
record and its diagnostics are the same. -/
theorem table_local {fs' : FileSystem} {q : Path}
    (h : ∀ s ∈ sources, s.components = q.components → fs'.readText s = fs.readText s) :
    (ofFiles fs' sources).table.fileRecord? q = (ofFiles fs sources).table.fileRecord? q ∧
      (ofFiles fs' sources).table.diagnostics.filter (·.document.components = q.components) =
        (ofFiles fs sources).table.diagnostics.filter (·.document.components = q.components) := by
  constructor
  · have hrecords : ∀ s ∈ (sources.filter (·.components = q.components)).reverse,
        fs'.recordIn? s = fs.recordIn? s := by
      intro s hs
      obtain ⟨hs, hcomponents⟩ : s ∈ sources ∧ s.components = q.components := by simpa using hs
      rw [FileSystem.recordIn?, FileSystem.recordIn?, h s hs hcomponents]
    rw [fileRecord?_table, fileRecord?_table, ← List.head?_filterMap, ← List.head?_filterMap,
      List.filterMap_congr hrecords]
  · rw [table, table, diagnostics_foldl, diagnostics_foldl, SymbolTable.empty, List.nil_append, List.nil_append,
      List.filter_flatMap, List.filter_flatMap]
    refine List.flatMap_congr fun s hs => ?_
    by_cases hcomponents : s.components = q.components
    · rw [FileSystem.diagnosticsIn, FileSystem.diagnosticsIn, h s hs hcomponents]
    · have hnone : ∀ fs : FileSystem,
          (fs.diagnosticsIn s).filter (·.document.components = q.components) = [] := by
        intro fs
        refine List.filter_eq_nil_iff.2 fun d hd => ?_
        rw [document_of_mem_diagnosticsIn hd]
        simpa using hcomponents
      rw [hnone, hnone]

end Survey

/-! ## Rebuilding -/

namespace Project

/-- The project is over this tree: its visits are those of the tree's walk. -/
def Over (p : Project) (h : Hierarchy) : Prop :=
  ∃ fuel, h.walk? fuel = some p.visits

theorem over_ofHierarchy {fuel : Nat} {h : Hierarchy} {config : Config} {p : Project}
    (hp : ofHierarchy? fuel h config = some p) : p.Over h ∧ p.config = config := by
  obtain ⟨visits, hvisits, rfl⟩ := Option.map_eq_some_iff.1 hp
  exact ⟨⟨fuel, hvisits⟩, rfl⟩

/-- A tree whose walk ends has projects over it, and a configuration chooses the
sources of all of them among the paths of the walk. -/
theorem exists_paths {h : Hierarchy} (hfinite : h.Unfolds .root) (config : Config) :
    ∃ paths, h.Preorder .root paths ∧
      (∃ cost, ∀ fuel, cost ≤ fuel → ∃ p, ofHierarchy? fuel h config = some p) ∧
      ∀ p : Project, p.Over h → p.config = config → p.sources = paths.filter config.isSource := by
  obtain ⟨paths, hpaths⟩ := hfinite.exists_preorder
  obtain ⟨cost, visits, hvisits, -⟩ := hpaths.exists_visits
  refine ⟨paths, hpaths, ⟨cost, fun fuel hfuel => ?_⟩, ?_⟩
  · rw [ofHierarchy?, hvisits fuel hfuel]
    exact ⟨_, rfl⟩
  · rintro p ⟨fuel, hwalk⟩ rfl
    exact hpaths.paths_eq hwalk _

/-- A rebuild merges the source files of the tree, each as it is when parsed
alone, whatever the project held before. No file changes the record or the
diagnostics of another: those of a path depend on what that path reads. -/
theorem rebuild_merges (h : Hierarchy) (hfinite : h.Unfolds .root) (config : Config)
    (hvalid : config.validate = .ok config) :
    ∃ paths, h.Preorder .root paths ∧
      (∃ cost, ∀ fuel, cost ≤ fuel → ∃ p, ofHierarchy? fuel h config = some p) ∧
      ∀ p : Project, p.Over h → p.config = config → ∀ (fs : FileSystem) (now : Nat),
        (p.rebuild fs now).1.snapshot.table.Merges fs (paths.filter config.isSource) ∧
        ∀ (fs' : FileSystem) (q : Path),
          (∀ s ∈ paths.filter config.isSource, s.components = q.components → fs'.readText s = fs.readText s) →
          (p.rebuild fs' now).1.snapshot.table.fileRecord? q = (p.rebuild fs now).1.snapshot.table.fileRecord? q ∧
          (p.rebuild fs' now).1.snapshot.table.diagnostics.filter (·.document.components = q.components) =
            (p.rebuild fs now).1.snapshot.table.diagnostics.filter (·.document.components = q.components) := by
  obtain ⟨paths, hpaths, hexists, hsources⟩ := exists_paths hfinite config
  refine ⟨paths, hpaths, hexists, fun p hover hconfig fs now => ?_⟩
  have htable : ∀ fs, (p.rebuild fs now).1.snapshot.table = (Survey.ofFiles fs p.sources).table := fun _ => rfl
  simp only [htable, hsources p hover hconfig]
  refine ⟨Survey.merges_table fun s hs => ?_, fun fs' q hq => Survey.table_local hq⟩
  exact Config.endsInName_of_isSource hvalid (List.mem_filter.1 hs).2

theorem rebuild_merges_pair :
    let tree := (((NodeTree.ofRoot none).addItem .root (some ⟨"/bad.epoch"⟩)).1.addItem .root
      (some ⟨"/good.epoch"⟩)).1
    tree.view.Unfolds .root ∧ ({} : Config).validate = .ok {} ∧
      ∃ p : Project, p.Over tree.view ∧ ∀ fs now,
        (p.rebuild fs now).1.snapshot.table.Merges fs [⟨"/bad.epoch"⟩, ⟨"/good.epoch"⟩] := by
  intro tree
  have hbuilt : tree.Built :=
    .addItem .root (some ⟨"/good.epoch"⟩) (.addItem .root (some ⟨"/bad.epoch"⟩) (.ofRoot none))
  have hunfolds := hbuilt.unfolds (by decide)
  have hvalid : ({} : Config).validate = .ok {} := by rfl
  have hwalk : tree.view.walk? 3 = some [.path ⟨"/bad.epoch"⟩, .path ⟨"/good.epoch"⟩] := by rfl
  obtain ⟨paths, hpaths, ⟨cost, hexists⟩, hmerges⟩ := rebuild_merges tree.view hunfolds {} hvalid
  obtain ⟨p, hp⟩ := hexists cost (Nat.le_refl _)
  obtain ⟨hover, hconfig⟩ := over_ofHierarchy hp
  have hsources : paths.filter ({} : Config).isSource = [⟨"/bad.epoch"⟩, ⟨"/good.epoch"⟩] := by
    rw [← hpaths.paths_eq hwalk]
    rfl
  refine ⟨hunfolds, hvalid, p, hover, fun fs now => ?_⟩
  rw [← hsources]
  exact (hmerges p hover hconfig fs now).1

end Project

end SourceModel
