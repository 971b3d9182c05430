import SourceModel.Proofs.Project.Order
import Mathlib.Algebra.GroupWithZero.Nat
/-!
# The figures of a rebuild

A rebuild counts while it fills its table, and the counts can be checked against
the table and the walk. Every source file of the walk is either parsed or an
error. A pass that stops leaves one diagnostic, so there are as many diagnostics
as failed files, and the paths with a failed record are the documents of the
diagnostics. `Statistics.Agrees` says so, with paths compared by components.

A file error belongs to a spelling and a record to a path. Where a path is
walked under two spellings and one of them is too long to be opened, the path
has an error and a record: `longSpelling_failed` is that case, and the only one.
-/

namespace SourceModel

/-! ## One file -/

namespace FileSystem

variable (fs : FileSystem)

/-- What a pass over a file finds, if the file can be read. -/
def parsedIn? (file : Path) : Option Parsing.ParsedFile :=
  (fs.readText file).toOption.map Parsing.parseText

variable {fs} {file : Path} {text : String}

theorem parsedIn?_eq (h : fs.readText file = .ok text) : fs.parsedIn? file = some (Parsing.parseText text) := by
  rw [parsedIn?, h]
  rfl

/-- The diagnostics of a file are its own, and it has one when its pass failed. -/
theorem diagnosticsIn_eq (h : fs.readText file = .ok text) :
    fs.diagnosticsIn file = SymbolTable.diagnosticsOf file (Parsing.parseText text) := by
  simp only [diagnosticsIn, h, SymbolTable.ofText, SymbolTable.augment_eq]
  rfl

theorem length_diagnosticsOf (file : Path) (parsed : Parsing.ParsedFile) :
    (SymbolTable.diagnosticsOf file parsed).length = if parsed.outcome = .failed then 1 else 0 := by
  unfold SymbolTable.diagnosticsOf Parsing.ParsedFile.outcome
  cases parsed.failure <;> rfl

/-- A diagnostic of a file tells that its pass failed. -/
theorem failed_of_mem_diagnosticsIn {d : Diagnostic} (h : d ∈ fs.diagnosticsIn file) :
    ∃ text, fs.readText file = .ok text ∧ (Parsing.parseText text).outcome = .failed := by
  cases htext : fs.readText file with
  | error =>
    rw [diagnosticsIn, htext] at h
    cases h
  | ok text =>
    refine ⟨text, rfl, ?_⟩
    have hpos := List.length_pos_of_mem h
    rw [diagnosticsIn_eq htext, length_diagnosticsOf] at hpos
    by_contra hsuccess
    rw [if_neg hsuccess] at hpos
    exact Nat.lt_irrefl 0 hpos

theorem exists_mem_diagnosticsIn (h : fs.readText file = .ok text) (hfailed : (Parsing.parseText text).outcome = .failed) :
    ∃ d ∈ fs.diagnosticsIn file, d.document = file := by
  have hpos : 0 < (fs.diagnosticsIn file).length := by
    rw [diagnosticsIn_eq h, length_diagnosticsOf, if_pos hfailed]
    exact Nat.one_pos
  obtain ⟨d, hd⟩ := List.exists_mem_of_length_pos hpos
  exact ⟨d, hd, Survey.document_of_mem_diagnosticsIn hd⟩

theorem errorIn?_eq_some {e : FileError} :
    fs.errorIn? file = some e ↔ ∃ failure, fs.readText file = .error failure ∧ e = .ofIo file failure := by
  unfold errorIn?
  cases fs.readText file with
  | ok => simp
  | error failure => simp [eq_comm]

end FileSystem

theorem FileError.path_ofIo (path : Path) (failure : IoFailure) : (FileError.ofIo path failure).path = path := by
  unfold ofIo
  split <;> rfl

/-! ## All files -/

namespace Survey

variable (fs : FileSystem) (files : List Path)

theorem parsedFiles_ofFiles : (ofFiles fs files).parsedFiles = files.filterMap fs.parsedIn? := by
  rw [parsedFiles, ofFiles, List.filterMap_map]
  refine List.filterMap_congr fun file _ => ?_
  rw [Function.comp_apply, Reading.ofFile, FileSystem.parsedIn?]
  cases fs.readText file <;> rfl

/-- Every file is parsed or an error. -/
theorem length_parsed_add_length_errors :
    (files.filterMap fs.parsedIn?).length + (files.filterMap fs.errorIn?).length = files.length := by
  rw [List.length_filterMap_eq_countP, List.length_filterMap_eq_countP,
    List.length_eq_countP_add_countP fun file => (fs.parsedIn? file).isSome]
  refine congrArg _ (List.countP_congr fun file _ => ?_)
  rw [FileSystem.parsedIn?, FileSystem.errorIn?]
  cases fs.readText file <;> simp [Except.toOption]

/-- Every failed pass leaves one diagnostic, and no other pass does. -/
theorem countP_failed :
    (files.filterMap fs.parsedIn?).countP (·.outcome = .failed) = (files.flatMap fs.diagnosticsIn).length := by
  induction files with
  | nil => rfl
  | cons file files ih =>
    rw [List.flatMap_cons, List.length_append, ← ih]
    cases h : fs.readText file with
    | ok text =>
      rw [List.filterMap_cons_some (FileSystem.parsedIn?_eq h), List.countP_cons, FileSystem.diagnosticsIn_eq h,
        FileSystem.length_diagnosticsOf, Nat.add_comm]
      simp
    | error failure => simp [FileSystem.parsedIn?, FileSystem.diagnosticsIn, h, Except.toOption]

/-- The names of all sum types that are recognised, one for each declaration. -/
theorem length_names :
    (files.flatMap fs.namesIn).length = ((files.filterMap fs.parsedIn?).flatMap (·.declarations)).length := by
  induction files with
  | nil => rfl
  | cons file files ih =>
    rw [List.flatMap_cons, List.length_append, ih]
    cases h : fs.readText file <;> simp [FileSystem.parsedIn?, FileSystem.namesIn, h, Except.toOption]

end Survey

/-! ## Records -/

namespace SymbolTable.Merges

variable {fs : FileSystem} {sources : List Path} {t : SymbolTable}

/-- A record is that of some spelling of its path that can be read. -/
theorem exists_of_record (h : t.Merges fs sources) {q : Path} {r : FileRecord} (hr : t.fileRecord? q = some r) :
    ∃ p ∈ sources, p.components = q.components ∧ ∃ text, fs.readText p = .ok text ∧
      r.outcome = (Parsing.parseText text).outcome := by
  have hread : ∃ p ∈ sources, p.components = q.components ∧ ∃ text, fs.readText p = .ok text := by
    by_contra hnone
    push Not at hnone
    rw [h.noRecord q hnone] at hr
    cases hr
  obtain ⟨p, hp, hcomponents, text, htext⟩ := hread
  obtain ⟨r', hr', -, houtcome, -⟩ := h.record p hp text htext q hcomponents.symm
  cases hr.symm.trans hr'
  exact ⟨p, hp, hcomponents, text, htext, houtcome⟩

/-- A path has a failed record exactly when it is the document of a diagnostic. -/
theorem failedRecord_iff (h : t.Merges fs sources) (q : Path) :
    (∃ r, t.fileRecord? q = some r ∧ r.outcome = .failed) ↔ ∃ d ∈ t.diagnostics, d.document.components = q.components := by
  simp only [h.diagnostics, List.mem_flatMap]
  constructor
  · rintro ⟨r, hr, hfailed⟩
    obtain ⟨p, hp, hcomponents, text, htext, houtcome⟩ := h.exists_of_record hr
    obtain ⟨d, hd, rfl⟩ := FileSystem.exists_mem_diagnosticsIn htext (houtcome.symm.trans hfailed)
    exact ⟨d, ⟨_, hp, hd⟩, hcomponents⟩
  · rintro ⟨d, ⟨p, hp, hd⟩, hcomponents⟩
    obtain ⟨text, htext, hfailed⟩ := FileSystem.failed_of_mem_diagnosticsIn hd
    rw [Survey.document_of_mem_diagnosticsIn hd] at hcomponents
    obtain ⟨r, hr, -, houtcome, -⟩ := h.record p hp text htext q hcomponents.symm
    exact ⟨r, hr, houtcome.trans hfailed⟩

/-- A path with an error and a diagnostic is one that was too long. -/
theorem long_of_error (h : t.Merges fs sources) (hnames : ∀ p ∈ sources, p.EndsInName)
    (hne : ∀ p ∈ sources, p.text ≠ "") {e : FileError} (he : e ∈ t.fileErrors) {d : Diagnostic}
    (hd : d ∈ t.diagnostics) (hcomponents : d.document.components = e.path.components) :
    FileSystem.maxPathBytes < e.path.text.utf8ByteSize := by
  rw [h.fileErrors] at he
  rw [h.diagnostics] at hd
  obtain ⟨p, hp, hpe⟩ := List.mem_filterMap.1 he
  obtain ⟨failure, hfailure, rfl⟩ := FileSystem.errorIn?_eq_some.1 hpe
  obtain ⟨s, hs, hsd⟩ := List.mem_flatMap.1 hd
  obtain ⟨text, htext, -⟩ := FileSystem.failed_of_mem_diagnosticsIn hsd
  rw [FileError.path_ofIo] at hcomponents ⊢
  rw [Survey.document_of_mem_diagnosticsIn hsd] at hcomponents
  by_contra hfits
  -- A spelling that fits is read like the other one.
  have hread := FileSystem.readText_of_components (hnames p hp) (hnames s hs) hcomponents.symm (hne p hp)
    (Nat.not_lt.1 hfits) htext
  cases hfailure.symm.trans hread

/-- The files that are read have records with their numbers of declarations. -/
theorem exists_records (h : t.Merges fs sources) {files : List Path} (hfiles : files ⊆ sources) :
    ∃ records : List FileRecord,
      (files.filter fun p => (fs.readText p).isOk).map t.fileRecord? = records.map some ∧
      ((files.filterMap fs.parsedIn?).flatMap (·.declarations)).length = (records.map (·.declarations)).sum := by
  induction files with
  | nil => exact ⟨[], rfl, rfl⟩
  | cons file files ih =>
    rw [List.cons_subset] at hfiles
    obtain ⟨records, hrecords, hsum⟩ := ih hfiles.2
    cases htext : fs.readText file with
    | error failure =>
      refine ⟨records, ?_, ?_⟩
      · rw [List.filter_cons_of_neg (by simp [htext, Except.isOk, Except.toBool]), hrecords]
      · rw [List.filterMap_cons_none (by simp [FileSystem.parsedIn?, htext, Except.toOption]), hsum]
    | ok text =>
      obtain ⟨r, hr, -, -, hcount⟩ := h.record file hfiles.1 text htext file rfl
      refine ⟨r :: records, ?_, ?_⟩
      · rw [List.filter_cons_of_pos (by simp [htext, Except.isOk, Except.toBool]), List.map_cons, hr, hrecords,
          List.map_cons]
      · rw [List.filterMap_cons_some (FileSystem.parsedIn?_eq htext), List.flatMap_cons, List.length_append, hsum,
          List.map_cons, List.sum_cons, hcount]

end SymbolTable.Merges

/-! ## Figures -/

/-- The figures of a rebuild agree with the table it made from these source
files. Paths are compared by components. -/
structure Statistics.Agrees (s : Statistics) (fs : FileSystem) (sources : List Path) (t : SymbolTable) : Prop where
  files : s.filesParsed + s.errors.length = sources.length
  errors : s.errors = t.fileErrors
  diagnostics : s.diagnostics = t.diagnostics.length
  failed : s.diagnostics = s.filesFailed
  failedRecord : ∀ q, (∃ r, t.fileRecord? q = some r ∧ r.outcome = .failed) ↔
    ∃ d ∈ t.diagnostics, d.document.components = q.components
  successRecord : ∀ q r, t.fileRecord? q = some r → r.outcome = .success →
    ∀ d ∈ t.diagnostics, d.document.components ≠ q.components
  /-- Only a spelling that is too long to be opened has an error while its path
  has a diagnostic. -/
  fileError : ∀ e ∈ t.fileErrors, ∀ d ∈ t.diagnostics, d.document.components = e.path.components →
    FileSystem.maxPathBytes < e.path.text.utf8ByteSize
  declarations : ∃ records : List FileRecord,
    (sources.filter fun p => (fs.readText p).isOk).map t.fileRecord? = records.map some ∧
      s.declarations = (records.map (·.declarations)).sum
  names : t.sumTypes.keys.Nodup ∧ t.sumTypes.keys.length ≤ s.declarations

theorem Survey.length_sumTypes_le (fs : FileSystem) (files : List Path) :
    (ofFiles fs files).table.sumTypes.keys.length ≤ (ofFiles fs files).statistics.declarations := by
  have hsubset : (ofFiles fs files).table.sumTypes.keys ⊆ files.flatMap fs.namesIn := by
    intro name hname
    rw [Registry.mem_keys, Registry.contains, table, sumTypes_foldl] at hname
    obtain ⟨s, hs⟩ := Option.isSome_iff_exists.1 hname
    obtain ⟨file, hfile, hfound⟩ := List.exists_of_findSome?_eq_some (hs : files.findSome? _ = some s)
    exact List.mem_flatMap.2 ⟨file, hfile, FileSystem.mem_namesIn hfound⟩
  have hle := ((ordered_table _).1.nodup_keys.subperm hsubset).length_le
  rwa [length_names, ← parsedFiles_ofFiles] at hle

theorem Survey.agrees {fs : FileSystem} {files : List Path} (hnames : ∀ p ∈ files, p.EndsInName)
    (hne : ∀ p ∈ files, p.text ≠ "") :
    (ofFiles fs files).statistics.Agrees fs files (ofFiles fs files).table where
  files := by
    rw [errors_statistics, statistics, parsedFiles_ofFiles, length_parsed_add_length_errors]
  errors := by rw [errors_statistics, (merges_table hnames).fileErrors]
  diagnostics := rfl
  failed := by
    rw [statistics, parsedFiles_ofFiles, countP_failed, (merges_table hnames).diagnostics]
  failedRecord := (merges_table hnames).failedRecord_iff
  successRecord q r hr hsuccess d hd hcomponents := by
    obtain ⟨r', hr', hfailed⟩ := ((merges_table hnames).failedRecord_iff q).2 ⟨d, hd, hcomponents⟩
    cases hr.symm.trans hr'
    cases hsuccess.symm.trans hfailed
  fileError _ he _ hd := (merges_table hnames).long_of_error hnames hne he hd
  declarations := by
    rw [statistics, parsedFiles_ofFiles]
    exact (merges_table hnames).exists_records fun _ => id
  names := ⟨(ordered_table _).1.nodup_keys, length_sumTypes_le fs files⟩

namespace Project

theorem isSource_of_mem_sources {p : Project} {s : Path} (h : s ∈ p.sources) : p.config.isSource s = true := by
  obtain ⟨visit, -, hvisit⟩ := List.mem_filterMap.1 h
  cases visit with
  | descend => cases hvisit
  | path q =>
    obtain ⟨hsource, heq⟩ := Option.ite_none_right_eq_some.1 hvisit
    cases heq
    exact hsource

theorem endsInName_of_mem_sources {p : Project} (hvalid : p.config.validate = .ok p.config) {s : Path}
    (h : s ∈ p.sources) : s.EndsInName :=
  Config.endsInName_of_isSource hvalid (isSource_of_mem_sources h)

/-- The figures of a rebuild agree with the snapshot it installs and with the
walk. A path may be walked more than once; it then counts each time, and has one
record. -/
theorem rebuild_figures (h : Hierarchy) (hfinite : h.Unfolds .root) (config : Config)
    (hvalid : config.validate = .ok config) :
    ∃ paths, h.Preorder .root paths ∧
      (∃ cost, ∀ fuel, cost ≤ fuel → ∃ p, ofHierarchy? fuel h config = some p) ∧
      ∀ p : Project, p.Over h → p.config = config → ∀ (fs : FileSystem) (now : Nat),
        (p.rebuild fs now).2.Agrees fs (paths.filter config.isSource) (p.rebuild fs now).1.snapshot.table := by
  obtain ⟨paths, hpaths, hexists, hsources⟩ := exists_paths hfinite config
  refine ⟨paths, hpaths, hexists, fun p hover hconfig fs now => ?_⟩
  rw [← hsources p hover hconfig]
  subst hconfig
  refine Survey.agrees (fun s hs => endsInName_of_mem_sources hvalid hs) fun s hs => ?_
  exact Config.text_ne_of_isSource (isSource_of_mem_sources hs)

/-- A path that is walked twice, and another spelling of it. -/
theorem rebuild_figures_repeated :
    let tree := ((((NodeTree.ofRoot none).addItem .root (some ⟨"/a.epoch"⟩)).1.addItem .root
      (some ⟨"/a.epoch"⟩)).1.addItem .root (some ⟨"//a.epoch"⟩)).1
    tree.view.Unfolds .root ∧ ({} : Config).validate = .ok {} ∧
      ∃ p : Project, p.Over tree.view ∧ ∀ fs now,
        (p.rebuild fs now).2.Agrees fs [⟨"/a.epoch"⟩, ⟨"/a.epoch"⟩, ⟨"//a.epoch"⟩]
          (p.rebuild fs now).1.snapshot.table := by
  intro tree
  have hbuilt : tree.Built :=
    .addItem .root (some ⟨"//a.epoch"⟩) (.addItem .root (some ⟨"/a.epoch"⟩)
      (.addItem .root (some ⟨"/a.epoch"⟩) (.ofRoot none)))
  have hunfolds := hbuilt.unfolds (by decide)
  have hvalid : ({} : Config).validate = .ok {} := by rfl
  have hwalk : tree.view.walk? 4 = some [.path ⟨"/a.epoch"⟩, .path ⟨"/a.epoch"⟩, .path ⟨"//a.epoch"⟩] := by rfl
  obtain ⟨paths, hpaths, ⟨cost, hexists⟩, hagrees⟩ := rebuild_figures tree.view hunfolds {} hvalid
  obtain ⟨p, hp⟩ := hexists cost (Nat.le_refl _)
  obtain ⟨hover, hconfig⟩ := over_ofHierarchy hp
  have hsources : paths.filter ({} : Config).isSource = [⟨"/a.epoch"⟩, ⟨"/a.epoch"⟩, ⟨"//a.epoch"⟩] := by
    rw [← hpaths.paths_eq hwalk]
    rfl
  refine ⟨hunfolds, hvalid, p, hover, fun fs now => ?_⟩
  rw [← hsources]
  exact hagrees p hover hconfig fs now

/-! ## A spelling that is too long -/

/-- A file whose pass fails. -/
def failingFile : FileSystem where
  root := .directory [("a.epoch", .file ";".toUTF8)]

/-- The path of the file with this many slashes in front. -/
def spelling (slashes : Nat) : Path :=
  ⟨String.ofList (List.replicate slashes '/') ++ "a.epoch"⟩

theorem toList_spelling (n : Nat) : (spelling n).text.toList = List.replicate n '/' ++ "a.epoch".toList := by
  rw [spelling, String.toList_append, String.toList_ofList]

theorem components_spelling (n : Nat) : (spelling (n + 1)).components = ["/", "a.epoch"] := by
  have habs : (spelling (n + 1)).isAbsolute = true := by
    rw [Path.isAbsolute, toList_spelling]
    rfl
  have hsplit : ∀ k, (Path.splitSlashes (List.replicate k '/' ++ "a.epoch".toList)).filter (· ≠ []) =
      ["a.epoch".toList] := by
    intro k
    induction k with
    | zero => decide
    | succ k ih => simpa [List.replicate_succ, Path.splitSlashes] using ih
  rw [Path.components, if_pos habs, Path.segments, toList_spelling, hsplit]
  decide

theorem utf8ByteSize_spelling (n : Nat) : (spelling n).text.utf8ByteSize = n + 7 := by
  have hslashes : ∀ k, (String.ofList (List.replicate k '/')).utf8ByteSize = k := by
    intro k
    induction k with
    | zero => rfl
    | succ k ih =>
      rw [List.replicate_succ, String.ofList_cons, String.utf8ByteSize_append, ih, Nat.add_comm]
      rfl
  rw [spelling, String.utf8ByteSize_append, hslashes]
  rfl

theorem isSource_spelling (n : Nat) : ({} : Config).isSource (spelling n) = true := by
  have hfold : Config.fold (spelling n).text = (List.replicate n '/').map Char.toLower ++ "a.epoch".toList := by
    rw [Config.fold, toList_spelling, List.map_append]
    rfl
  rw [Config.isSource, List.isSuffixOf_iff_suffix, hfold]
  exact List.IsSuffix.trans (by decide) (List.suffix_append _ _)

/-- A path may have an error and a failed record at once: the file is walked
under two spellings, and the second is too long to be opened. -/
theorem longSpelling_failed :
    let tree := (((NodeTree.ofRoot none).addItem .root (some (spelling 1))).1.addItem .root
      (some (spelling 4096))).1
    tree.view.Unfolds .root ∧ ({} : Config).validate = .ok {} ∧
      ∃ p : Project, p.Over tree.view ∧ p.config = {} ∧
        let t := (p.rebuild failingFile 0).1.snapshot.table
        (∃ e ∈ t.fileErrors, e.path = spelling 4096) ∧
        (∃ r, t.fileRecord? (spelling 4096) = some r ∧ r.outcome = .failed) ∧
        ¬ ∀ q, (∃ e ∈ t.fileErrors, e.path = q) → ∀ d ∈ t.diagnostics, d.document.components ≠ q.components := by
  intro tree
  have hbuilt : tree.Built :=
    .addItem .root (some (spelling 4096)) (.addItem .root (some (spelling 1)) (.ofRoot none))
  have hvalid : ({} : Config).validate = .ok {} := by rfl
  let p : Project := { config := {}, visits := [.path (spelling 1), .path (spelling 4096)] }
  have hsources : p.sources = [spelling 1, spelling 4096] := by
    simp [p, sources, Visit.paths, isSource_spelling]
  refine ⟨hbuilt.unfolds (by decide), hvalid, p, ⟨3, rfl⟩, rfl, ?_⟩
  have hmerges : (p.rebuild failingFile 0).1.snapshot.table.Merges failingFile p.sources :=
    Survey.merges_table fun _ hs => endsInName_of_mem_sources hvalid hs
  rw [hsources] at hmerges
  have hshort : failingFile.readText (spelling 1) = .ok ";" := by
    have hplain : failingFile.root.isPlain = true := by decide
    have hfs : failingFile.Proper := ⟨rfl, Entry.wellNamed_of_isPlain hplain⟩
    have hreadable := hfs.readable_of_shallow (Entry.linkFree_of_isPlain hplain) (by decide)
      (List.forall_mem_nil _) rfl
      (show failingFile.root.get? ["a.epoch"] = some (.file ";".toUTF8) from rfl)
    have hpath : spelling 1 = FileSystem.pathOf ["a.epoch"] := congrArg Path.mk (by decide)
    rw [hpath]
    exact hreadable.readText hfs List.not_mem_nil (by decide +kernel)
  have hfailed : (Parsing.parseText ";").outcome = .failed := by decide +kernel
  have hsame : (spelling 4096).components = (spelling 1).components := by
    rw [components_spelling, components_spelling]
  obtain ⟨failure, hlong⟩ : ∃ failure, failingFile.readText (spelling 4096) = .error failure := by
    cases htext : failingFile.readText (spelling 4096) with
    | error failure => exact ⟨failure, rfl⟩
    | ok text =>
      have hfits := FileSystem.fits_of_readText htext
      rw [utf8ByteSize_spelling] at hfits
      exact absurd hfits (by decide)
  have herror : ∃ e ∈ (p.rebuild failingFile 0).1.snapshot.table.fileErrors, e.path = spelling 4096 := by
    refine ⟨.ofIo (spelling 4096) failure, ?_, FileError.path_ofIo _ _⟩
    rw [hmerges.fileErrors]
    exact List.mem_filterMap.2 ⟨_, by simp, FileSystem.errorIn?_eq_some.2 ⟨failure, hlong, rfl⟩⟩
  obtain ⟨r, hr, -, houtcome, -⟩ := hmerges.record (spelling 1) (by simp) ";" hshort (spelling 4096) hsame
  refine ⟨herror, ⟨r, hr, houtcome.trans hfailed⟩, fun hnone => ?_⟩
  obtain ⟨d, hd, hdocument⟩ := (hmerges.failedRecord_iff (spelling 4096)).1 ⟨r, hr, houtcome.trans hfailed⟩
  exact hnone (spelling 4096) herror d hd hdocument

end Project

end SourceModel
