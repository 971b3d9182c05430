import SourceModel.CommandLine.Run
import SourceModel.Proofs.FileSystem.Location
import SourceModel.Proofs.Parsing.Viable
import SourceModel.Proofs.Project.Opening
import SourceModel.Proofs.Workspace.Outlines
/-!
# A check fails exactly on bad files

A source file is in order when it reads as text and its tokens are declarations.
The check command succeeds when all source files of the workspace are in order,
and otherwise announces as many diagnostics and unreadable files as there are
files that are not: each of them leaves exactly one of the two.
-/

namespace SourceModel

/-! ## Files in order -/

namespace FileSystem

variable (fs : FileSystem)

/-- The file reads as text, and its tokens are declarations. -/
def WellFormedAt (file : Path) : Prop :=
  ∃ text, fs.readText file = .ok text ∧ Grammar.IsFile (Lexical.tokenize text)

variable {fs}

theorem wellFormedAt_of_ok {file : Path} {text : String} (h : fs.readText file = .ok text) :
    fs.WellFormedAt file ↔ (Parsing.parseText text).failure = none := by
  rw [Parsing.parseText, ← Grammar.isFile_iff]
  constructor
  · rintro ⟨text', htext', hfile⟩
    cases h.symm.trans htext'
    exact hfile
  · exact fun hfile => ⟨text, h, hfile⟩

theorem not_wellFormedAt_of_error {file : Path} {failure : IoFailure} (h : fs.readText file = .error failure) :
    ¬ fs.WellFormedAt file := by
  rintro ⟨text, htext, -⟩
  cases h.symm.trans htext

instance (file : Path) : Decidable (fs.WellFormedAt file) :=
  match h : fs.readText file with
  | .ok _ => decidable_of_iff _ (wellFormedAt_of_ok h).symm
  | .error _ => .isFalse (not_wellFormedAt_of_error h)

variable (fs)

/-- A file in order leaves nothing behind, any other one diagnostic or one error. -/
theorem length_findingsIn (file : Path) :
    (fs.diagnosticsIn file).length + (fs.errorIn? file).toList.length = if fs.WellFormedAt file then 0 else 1 := by
  cases h : fs.readText file with
  | error failure => simp [diagnosticsIn, errorIn?, h, not_wellFormedAt_of_error h]
  | ok text =>
    simp only [diagnosticsIn, errorIn?, h, SymbolTable.ofText, SymbolTable.augment_eq, wellFormedAt_of_ok h,
      SymbolTable.diagnosticsOf]
    cases (Parsing.parseText text).failure <;> simp [SymbolTable.empty]

theorem length_findings (files : List Path) :
    (files.flatMap fs.diagnosticsIn).length + (files.filterMap fs.errorIn?).length =
      files.countP fun file => ¬ fs.WellFormedAt file := by
  induction files with
  | nil => rfl
  | cons file files ih =>
    have herrors : ((file :: files).filterMap fs.errorIn?).length =
        (fs.errorIn? file).toList.length + (files.filterMap fs.errorIn?).length := by
      cases h : fs.errorIn? file <;> simp [h, Nat.add_comm]
    have hfile := fs.length_findingsIn file
    rw [List.flatMap_cons, List.length_append, herrors, List.countP_cons, ← ih]
    by_cases hwell : fs.WellFormedAt file
    · simp only [hwell, ↓reduceIte, not_true_eq_false, decide_false, Bool.false_eq_true] at hfile ⊢
      omega
    · simp only [hwell, ↓reduceIte, not_false_eq_true, decide_true] at hfile ⊢
      omega

/-- The files with an error are those that cannot be read. -/
theorem length_errors (files : List Path) :
    (files.filterMap fs.errorIn?).length = files.countP fun file => !(fs.readText file).isOk := by
  rw [List.length_filterMap_eq_countP]
  refine List.countP_congr fun file _ => ?_
  rw [errorIn?]
  cases fs.readText file <;> simp [Except.isOk, Except.toBool]

end FileSystem

/-! ## Opening -/

namespace Project

/-- The error with which a workspace is not opened. -/
inductive Refused (fs : FileSystem) (workspace : Path) : Error → Prop
  | config {e : Error} : Config.discover fs workspace = .error e → Refused fs workspace e
  | missing {config : Config} {failure : IoFailure} : Config.discover fs workspace = .ok config →
      fs.canonical workspace = .error failure → Refused fs workspace (.workspace (.rootMissing workspace failure))
  | notDirectory {config : Config} {root : Path} : Config.discover fs workspace = .ok config →
      fs.canonical workspace = .ok root → fs.isDirectory root = false →
      Refused fs workspace (.workspace (.rootNotDirectory root))

theorem Refused.openScan_eq {fs : FileSystem} {workspace : Path} {e : Error} (h : Refused fs workspace e) :
    openScan fs workspace = .error e := by
  cases h with
  | config hconfig => simp only [openScan, hconfig, bind, Except.bind]
  | missing hconfig hroot =>
    simp only [openScan, hconfig, Scan.run, hroot, Except.mapError, bind, Except.bind]
  | notDirectory hconfig hroot hdir =>
    simp only [openScan, hconfig, Scan.run, hroot, hdir, Except.mapError, bind, Except.bind,
      Bool.false_eq_true, ↓reduceIte]

end Project

/-! ## Reports -/

namespace CommandLine

/-- These lines announce a number of things: none when there are none, else a
heading that gives the number. -/
def Announces (color : Bool) (title : String) (count : Nat) (lines : List String) : Prop :=
  (count = 0 ∧ lines = []) ∨
    (0 < count ∧ ∃ items, lines = "" :: ((Style.heading .red).paint color title ++ s!" ({count}):") :: items)

/-- The outcome of a check of these files. -/
structure Outcome.Checks (o : Outcome) (color : Bool) (fs : FileSystem) (files : List Path) : Prop where
  success : o.code = 0 ↔ ∀ file ∈ files, fs.WellFormedAt file
  failure : o.code ≠ 0 → o.code = 1
  announced : ∃ front diagnostics unreadable, o.output = front ++ diagnostics ++ unreadable ∧ front.length = 3 ∧
    ∃ n m, Announces color "Diagnostics" n diagnostics ∧ Announces color "Unreadable files" m unreadable ∧
      n + m = (files.countP fun file => ¬ fs.WellFormedAt file) ∧
      m = files.countP fun file => !(fs.readText file).isOk

namespace CheckReport

theorem announces_listing {α : Type} (color : Bool) (title : String) (items : List α) (line : α → String) :
    Announces color title items.length (listing color title items line) := by
  cases items with
  | nil => exact .inl ⟨rfl, rfl⟩
  | cons item items => exact .inr ⟨Nat.succ_pos _, _, rfl⟩

theorem diagnostics_ofProject (fs : FileSystem) (workspace : Path) (project : Project) :
    (ofProject fs workspace project).diagnostics = project.sources.flatMap fs.diagnosticsIn :=
  Survey.diagnostics_foldl fs project.sources .empty

theorem errors_ofProject (fs : FileSystem) (workspace : Path) (project : Project) :
    (ofProject fs workspace project).statistics.errors = project.sources.filterMap fs.errorIn? :=
  Survey.errors_statistics fs project.sources

theorem exitCode_eq_zero (r : CheckReport) :
    r.exitCode = 0 ↔ r.diagnostics.length + r.statistics.errors.length = 0 := by
  rw [exitCode, isClean, Nat.add_eq_zero_iff, List.length_eq_zero_iff, List.length_eq_zero_iff]
  simp

theorem exitCode_le_one (r : CheckReport) : r.exitCode ≤ 1 := by
  rw [exitCode]
  split <;> decide

end CheckReport

/-- A command that was opened checks the source files of the project. -/
theorem runOpened_checks (terminal : Terminal) (fs : FileSystem) (json : Bool) (workspace : Path) (project : Project)
    (opening : String) (log : List String) :
    ((runOpened terminal fs .check json workspace project).after [opening] log).Checks terminal.color fs
      project.sources := by
  have hfindings := fs.length_findings project.sources
  have herrors := fs.length_errors project.sources
  rw [← CheckReport.errors_ofProject fs workspace] at hfindings herrors
  rw [← CheckReport.diagnostics_ofProject fs workspace] at hfindings
  constructor
  · refine (CheckReport.exitCode_eq_zero _).trans ?_
    rw [hfindings, List.countP_eq_zero]
    simp
  · intro hne
    exact Nat.le_antisymm (CheckReport.exitCode_le_one _) (Nat.pos_of_ne_zero hne)
  · exact ⟨[opening, _, _], _, _, rfl, rfl, _, _, CheckReport.announces_listing _ _ _ _,
      CheckReport.announces_listing _ _ _ _, hfindings, herrors⟩

/-! ## The command -/

/-- The check command is exact. Where a workspace can be opened, it succeeds
when every source file of the walk is in order, and otherwise announces one
finding for each file that is not. Where the configuration is bad or the root
is no directory, it says so and parses nothing. -/
theorem check_exact (terminal : Terminal) (fs : FileSystem) (json : Bool) (workspace : Path) (verbosity : Nat) :
    (∀ config root, Config.discover fs workspace = .ok config → fs.canonical workspace = .ok root →
      fs.isDirectory root = true →
      ∃ scan, Scan.run fs config workspace = .ok scan ∧ scan.root = root ∧
        ((Outline.pathsInAll scan.listing.outlines).length < 0xFFFFFFFE →
          ∃ fuel, scan.tree.view.walk? fuel = some scan.visits) ∧
        (runAt terminal fs .check json workspace verbosity).Checks terminal.color fs
          (Visit.paths scan.visits config.isSource)) ∧
    ∀ e, Project.Refused fs workspace e →
      runAt terminal fs .check json workspace verbosity =
        { code := 1
          output := [CheckReport.openingLine terminal.color workspace]
          errors := errorLines terminal.color e } := by
  constructor
  · intro config root hconfig hroot hdir
    have hscan : Scan.run fs config workspace = .ok ⟨root, fs.listing config fs.maxDepth root⟩ := by
      simp only [Scan.run, hroot, Except.mapError, bind, Except.bind, hdir, ↓reduceIte]
    refine ⟨_, hscan, rfl, fun hsmall => (Scan.walk_visits _ hsmall).1, ?_⟩
    unfold runAt
    rw [Project.openScan_eq hconfig hscan]
    exact runOpened_checks terminal fs json workspace _ _ _
  · intro e hrefused
    unfold runAt
    rw [hrefused.openScan_eq]

/-- One file in order, one that is not a text, and no configuration. -/
def mixedFiles : FileSystem where
  root := .directory
    [("w", .directory [("good.epoch", .file "sumtype A = B".toUTF8), ("odd.epoch", .file ⟨#[0xFF]⟩)])]

theorem check_exact_mixed :
    Config.discover mixedFiles (FileSystem.pathOf ["w"]) = .ok {} ∧
      mixedFiles.canonical (FileSystem.pathOf ["w"]) = .ok (FileSystem.pathOf ["w"]) ∧
      mixedFiles.isDirectory (FileSystem.pathOf ["w"]) = true ∧
      ∃ scan, Scan.run mixedFiles {} (FileSystem.pathOf ["w"]) = .ok scan ∧
        (runAt {} mixedFiles .check false (FileSystem.pathOf ["w"]) 0).Checks false mixedFiles
          (Visit.paths scan.visits ({} : Config).isSource) := by
  have hplain : mixedFiles.root.isPlain = true := by decide
  have hfs : mixedFiles.Proper := ⟨rfl, Entry.wellNamed_of_isPlain hplain⟩
  have hw := hfs.readable_of_shallow (Entry.linkFree_of_isPlain hplain) (by decide) (List.forall_mem_nil _) rfl
    (show mixedFiles.root.get? ["w"] = some (.directory _) from rfl)
  have hconfig : Config.discover mixedFiles (FileSystem.pathOf ["w"]) = .ok {} := by
    rw [Config.discover, FileSystem.isFile, hw.find?_join hfs (by decide)]
    rfl
  have hroot : mixedFiles.canonical (FileSystem.pathOf ["w"]) = .ok (FileSystem.pathOf ["w"]) := by
    rw [FileSystem.canonical, hw.resolve hfs]
    rfl
  have hdir : mixedFiles.isDirectory (FileSystem.pathOf ["w"]) = true := by
    rw [FileSystem.isDirectory, hw.find? hfs]
    rfl
  obtain ⟨scan, hscan, -, -, hchecks⟩ :=
    (check_exact {} mixedFiles false (FileSystem.pathOf ["w"]) 0).1 {} _ hconfig hroot hdir
  exact ⟨hconfig, hroot, hdir, scan, hscan, hchecks⟩

end CommandLine

end SourceModel
