import SourceModel.Proofs.Project.Merge
import SourceModel.Proofs.Workspace.Admitted
/-!
# Opening a healthy workspace

A workspace is healthy when it holds no links, its directories can be listed and
its files read as text. What a rebuild hands to the parser is chosen by the text
of its path alone, and directories have paths as files do. So the files of a
healthy workspace leave no error, and the errors of its first rebuild are those
directories, the root among them, whose paths end in the source extension.
-/

namespace SourceModel

namespace FileSystem

/-- A directory without links below it, in which every directory can be listed
and every file is a text. -/
structure Healthy (fs : FileSystem) (base : Location) (tree : Entry) : Prop where
  found : fs.root.get? base = some tree
  directory : tree.isDirectory = true
  linkFree : tree.LinkFree
  lists : ∀ location entries, tree.get? location = some (.directory entries) →
    ∃ names, fs.names (pathOf (base ++ location)) = .ok names
  reads : ∀ location content, tree.get? location = some (.file content) →
    ∃ text, fs.readText (pathOf (base ++ location)) = .ok text

namespace Healthy

variable {fs : FileSystem} {base location : Location} {tree e : Entry}

theorem readable (h : fs.Healthy base tree) (hfs : fs.Proper) : fs.Readable base tree := by
  refine .of_names hfs h.found h.linkFree (fun below hbelow => ?_) h.lists
  obtain ⟨child, hchild⟩ := Option.isSome_iff_exists.1 hbelow
  cases child with
  | file content =>
    obtain ⟨text, htext⟩ := h.reads below content hchild
    obtain ⟨there, hthere, -⟩ := exists_resolve_of_bind htext
    exact ⟨there, hthere⟩
  | link => exact absurd (h.linkFree below _ hchild) (by simp [Entry.isLink])
  | directory entries =>
    obtain ⟨names, hnames⟩ := h.lists below entries hchild
    obtain ⟨there, hthere, -⟩ := exists_resolve_of_bind hnames
    exact ⟨there, hthere⟩

theorem isDirectory_eq (h : fs.Healthy base tree) (hfs : fs.Proper) (hget : tree.get? location = some e) :
    fs.isDirectory (pathOf (base ++ location)) = e.isDirectory := by
  rw [isDirectory, ((h.readable hfs).below hget).find? hfs]
  rfl

/-- What is no directory is a file. -/
theorem isFile_eq (h : fs.Healthy base tree) (hfs : fs.Proper) (hget : tree.get? location = some e) :
    fs.isFile (pathOf (base ++ location)) = !e.isDirectory := by
  rw [isFile, ((h.readable hfs).below hget).find? hfs]
  cases e with
  | file => rfl
  | link => exact absurd (h.linkFree location _ hget) (by simp [Entry.isLink])
  | directory => rfl

/-- Only directories cannot be read. -/
theorem errorIn?_eq (h : fs.Healthy base tree) (hfs : fs.Proper) (hget : tree.get? location = some e) :
    fs.errorIn? (pathOf (base ++ location)) =
      if e.isDirectory then some (.ofIo (pathOf (base ++ location)) (.system .isDirectory)) else none := by
  cases e with
  | file content =>
    obtain ⟨text, htext⟩ := h.reads location content hget
    rw [errorIn?, htext]
    rfl
  | link => exact absurd (h.linkFree location _ hget) (by simp [Entry.isLink])
  | directory entries =>
    rw [errorIn?, ((h.readable hfs).below hget).readText_directory hfs]
    rfl

end Healthy

end FileSystem

/-! ## What is walked -/

/-- The walk of a scanned tree visits its root, and below it what is admitted. -/
def Visited (config : Config) (tree : Entry) (location : Location) : Prop :=
  location = [] ∨ Admitted config tree location

theorem Visited.exists_get? {config : Config} {tree : Entry} {location : Location} (h : Visited config tree location) :
    ∃ e, tree.get? location = some e := by
  rcases h with rfl | h
  · exact ⟨tree, rfl⟩
  · exact Option.isSome_iff_exists.1 h.present

namespace Project

open FileSystem (pathOf)

theorem openScan_eq {fs : FileSystem} {workspace : Path} {config : Config} {scan : Scan}
    (hconfig : Config.discover fs workspace = .ok config) (hscan : Scan.run fs config workspace = .ok scan) :
    openScan fs workspace = .ok (scan, .ofScan scan config) := by
  simp only [openScan, hconfig, hscan, Except.mapError, bind, Except.bind, pure, Except.pure]

section

variable {fs : FileSystem} {root : Path} {base : Location} {tree : Entry} {config : Config}

/-- A readable directory opens. Its source files are the visited entries whose
paths end in the source extension, whatever stands there. -/
theorem exists_openDir (hfs : fs.Proper) (hroot : fs.resolve root = .ok base) (h : fs.Readable base tree)
    (hdir : tree.isDirectory = true) (hfew : tree.countBelow < 0xFFFFFFFE)
    (hconfig : Config.discover fs root = .ok config) :
    ∃ p, openDir fs root = .ok p ∧ ∀ s, s ∈ p.sources ↔
      ∃ location, Visited config tree location ∧ s = pathOf (base ++ location) ∧ config.isSource s = true := by
  have hdepth := FileSystem.height_le_maxDepth h.found
  obtain ⟨scan, hscan, -, -, -, -, hpaths⟩ := Scan.exists_scan hfs config hroot h hdir hfew
  have hopen : openDir fs root = .ok (ofScan scan config) := by
    rw [openDir, openScan_eq hconfig hscan]
    rfl
  have hsources : (ofScan scan config).sources = Visit.paths scan.visits config.isSource := rfl
  refine ⟨_, hopen, fun s => ?_⟩
  rw [hsources, hpaths, List.mem_filter, List.mem_cons, List.mem_map]
  constructor
  · rintro ⟨rfl | ⟨location, hlocation, rfl⟩, hsource⟩
    · exact ⟨[], .inl rfl, by rw [List.append_nil], hsource⟩
    · exact ⟨location, .inr ((Entry.mem_listed hdepth).1 hlocation), rfl, hsource⟩
  · rintro ⟨location, rfl | hadmitted, rfl, hsource⟩
    · exact ⟨.inl (by rw [List.append_nil]), hsource⟩
    · exact ⟨.inr ⟨location, (Entry.mem_listed hdepth).2 hadmitted, rfl⟩, hsource⟩

theorem fileErrors_rebuild (p : Project) (fs : FileSystem) (now : Nat) :
    (p.rebuild fs now).1.snapshot.table.fileErrors = p.sources.filterMap fs.errorIn? :=
  Survey.fileErrors_foldl fs p.sources .empty

/-- A healthy workspace opens, and a rebuild hands to the parser what is visited
and has a path with the source extension. Each of these is a file, which is read
without error, or a directory, which is reported as a file that cannot be read.
So nothing is reported exactly when no visited directory has such a path. The
bound on the entries is that of the numbers a tree has for its items. -/
theorem open_healthy (hfs : fs.Proper) (hroot : fs.resolve root = .ok base) (h : fs.Healthy base tree)
    (hfew : tree.countBelow < 0xFFFFFFFE) (hconfig : Config.discover fs root = .ok config) :
    ∃ p, openDir fs root = .ok p ∧
      (∀ s, s ∈ p.sources ↔
        ∃ location, Visited config tree location ∧ s = pathOf (base ++ location) ∧ config.isSource s = true) ∧
      (∀ s ∈ p.sources, fs.isFile s = !fs.isDirectory s) ∧
      ∀ now,
        (p.rebuild fs now).1.snapshot.table.fileErrors =
          (p.sources.filter fs.isDirectory).map (.ofIo · (.system .isDirectory)) ∧
        ((p.rebuild fs now).1.snapshot.table.fileErrors = [] ↔
          ∀ location entries, Visited config tree location → tree.get? location = some (.directory entries) →
            config.isSource (pathOf (base ++ location)) = false) := by
  obtain ⟨p, hopen, hsources⟩ := exists_openDir hfs hroot (h.readable hfs) h.directory hfew hconfig
  have hentry : ∀ s ∈ p.sources, ∃ location e, tree.get? location = some e ∧ s = pathOf (base ++ location) := by
    intro s hs
    obtain ⟨location, hvisited, rfl, -⟩ := (hsources s).1 hs
    obtain ⟨e, hget⟩ := hvisited.exists_get?
    exact ⟨location, e, hget, rfl⟩
  have herrors : ∀ now, (p.rebuild fs now).1.snapshot.table.fileErrors =
      (p.sources.filter fs.isDirectory).map (.ofIo · (.system .isDirectory)) := by
    intro now
    rw [fileErrors_rebuild, ← List.filterMap_eq_map, List.filterMap_filter]
    refine List.filterMap_congr fun s hs => ?_
    obtain ⟨location, e, hget, rfl⟩ := hentry s hs
    rw [h.errorIn?_eq hfs hget, h.isDirectory_eq hfs hget]
    rfl
  refine ⟨p, hopen, hsources, fun s hs => ?_, fun now => ⟨herrors now, ?_⟩⟩
  · obtain ⟨location, e, hget, rfl⟩ := hentry s hs
    rw [h.isFile_eq hfs hget, h.isDirectory_eq hfs hget]
  · rw [herrors, List.map_eq_nil_iff, List.filter_eq_nil_iff]
    constructor
    · intro hnone location entries hvisited hget
      rw [← Bool.not_eq_true]
      intro hsource
      refine hnone _ ((hsources _).2 ⟨location, hvisited, rfl, hsource⟩) ?_
      rw [h.isDirectory_eq hfs hget]
      rfl
    · intro hnone s hs hdir
      obtain ⟨location, hvisited, rfl, hsource⟩ := (hsources s).1 hs
      obtain ⟨e, hget⟩ := hvisited.exists_get?
      rw [h.isDirectory_eq hfs hget] at hdir
      cases e with
      | file => cases hdir
      | link => cases hdir
      | directory entries => exact Bool.false_ne_true ((hnone location entries hvisited hget).symm.trans hsource)

end

/-- A directory with the name of a source file, and a source file in it. -/
def generatedTree : Entry :=
  .directory [("gen.epoch", .directory [("a.epoch", .file "sumtype A = B".toUTF8)])]

def generatedFiles : FileSystem where
  root := .directory [("w", generatedTree)]

theorem proper_generatedFiles : generatedFiles.Proper :=
  ⟨rfl, Entry.wellNamed_of_isPlain (by decide)⟩

theorem generatedTree_file {location : Location} {content : ByteArray}
    (h : generatedTree.get? location = some (.file content)) : content = "sumtype A = B".toUTF8 := by
  cases location with
  | nil => cases h
  | cons name rest =>
    obtain ⟨child, hchild, hrest⟩ := Option.bind_eq_some_iff.1 h
    obtain ⟨rfl, rfl⟩ : name = "gen.epoch" ∧ child = .directory [("a.epoch", .file "sumtype A = B".toUTF8)] := by
      simpa [generatedTree, Entry.entries] using Entry.mem_of_child? hchild
    cases rest with
    | nil => cases hrest
    | cons name rest =>
      obtain ⟨child, hchild, hrest⟩ := Option.bind_eq_some_iff.1 hrest
      obtain ⟨rfl, rfl⟩ : name = "a.epoch" ∧ child = .file "sumtype A = B".toUTF8 := by
        simpa [Entry.entries] using Entry.mem_of_child? hchild
      cases rest with
      | nil =>
        cases hrest
        rfl
      | cons => cases hrest

theorem healthy_generatedFiles : generatedFiles.Healthy ["w"] generatedTree := by
  have hfs := proper_generatedFiles
  have hw := hfs.readable_of_shallow (Entry.linkFree_of_isPlain (by decide)) (by decide)
    (List.forall_mem_nil _) rfl
    (show generatedFiles.root.get? ["w"] = some generatedTree from rfl)
  refine ⟨hw.found, rfl, hw.linkFree, fun location entries hget => ⟨_, (hw.below hget).names hfs⟩, ?_⟩
  intro location content hget
  obtain rfl := generatedTree_file hget
  exact ⟨_, (hw.below hget).readText hfs List.not_mem_nil (show _ = some "sumtype A = B" by decide +kernel)⟩

theorem discover_generatedFiles : Config.discover generatedFiles (pathOf ["w"]) = .ok {} := by
  have hfs := proper_generatedFiles
  rw [Config.discover, FileSystem.isFile, (healthy_generatedFiles.readable hfs).find?_join hfs (by decide)]
  rfl

theorem open_healthy_generated :
    generatedFiles.Healthy ["w"] generatedTree ∧
    ∃ p, openDir generatedFiles (pathOf ["w"]) = .ok p ∧
      (p.rebuild generatedFiles 0).1.snapshot.table.fileErrors =
        (p.sources.filter generatedFiles.isDirectory).map (.ofIo · (.system .isDirectory)) := by
  have h := healthy_generatedFiles
  have hfs := proper_generatedFiles
  obtain ⟨p, hopen, -, -, herrors⟩ := open_healthy hfs ((h.readable hfs).resolve hfs) h (by decide)
    discover_generatedFiles
  exact ⟨h, p, hopen, (herrors 0).1⟩

/-- A healthy workspace may have a file error: a directory with the name of a
source file is read as one. -/
theorem directory_reported :
    generatedFiles.Healthy ["w"] generatedTree ∧ Config.discover generatedFiles (pathOf ["w"]) = .ok {} ∧
      ∃ p, openDir generatedFiles (pathOf ["w"]) = .ok p ∧ pathOf ["w", "gen.epoch"] ∈ p.sources ∧
        generatedFiles.isFile (pathOf ["w", "gen.epoch"]) = false ∧
        FileError.ofIo (pathOf ["w", "gen.epoch"]) (.system .isDirectory) ∈
          (p.rebuild generatedFiles 0).1.snapshot.table.fileErrors := by
  have hfs := proper_generatedFiles
  have h := healthy_generatedFiles
  have hget : generatedTree.get? ["gen.epoch"] = some (.directory _) := rfl
  have hvisited : Visited {} generatedTree ["gen.epoch"] :=
    .inr (admitted_cons.2 ⟨_, rfl, by decide, .inl rfl⟩)
  obtain ⟨p, hopen, hsources⟩ := exists_openDir hfs ((h.readable hfs).resolve hfs) (h.readable hfs) h.directory
    (by decide) discover_generatedFiles
  have hsource : pathOf (["w"] ++ ["gen.epoch"]) ∈ p.sources :=
    (hsources _).2 ⟨["gen.epoch"], hvisited, rfl, by decide⟩
  refine ⟨h, discover_generatedFiles, p, hopen, hsource, h.isFile_eq hfs hget, ?_⟩
  rw [fileErrors_rebuild]
  exact List.mem_filterMap.2 ⟨_, hsource, h.errorIn?_eq hfs hget⟩

end Project

end SourceModel
