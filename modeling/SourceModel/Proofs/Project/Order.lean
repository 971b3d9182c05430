import SourceModel.Proofs.FileSystem.Location
import SourceModel.Proofs.Project.Merge
import SourceModel.Proofs.Registry
import Mathlib.Data.String.Basic
/-!
# The order of files matters for clashing names only

Two projects that read the same files in different orders end up with the same
table, as long as no two files declare the same name: sum types, type names and
file records are equal, and the lists of diagnostics and file errors hold the
same in another order. First-come registration is what makes the order matter
in general, so the argument is that without a clash there is one answer to come
first.
-/

namespace SourceModel

/-- A search by answers does not depend on the order where all answers are alike. -/
theorem findSome?_eq_of_perm {α β : Type} {f : α → Option β} {xs ys : List α} (hperm : xs.Perm ys)
    (hagree : ∀ x ∈ xs, ∀ x' ∈ xs, ∀ y y', f x = some y → f x' = some y' → y = y') :
    xs.findSome? f = ys.findSome? f := by
  cases hxs : xs.findSome? f with
  | none =>
    symm
    rw [List.findSome?_eq_none_iff] at hxs ⊢
    exact fun x hx => hxs x (hperm.mem_iff.2 hx)
  | some y =>
    obtain ⟨x, hx, hy⟩ := List.exists_of_findSome?_eq_some hxs
    cases hys : ys.findSome? f with
    | none =>
      have hnone := List.findSome?_eq_none_iff.1 hys x (hperm.mem_iff.1 hx)
      rw [hy] at hnone
      cases hnone
    | some y' =>
      obtain ⟨x', hx', hy'⟩ := List.exists_of_findSome?_eq_some hys
      rw [hagree x hx x' (hperm.mem_iff.2 hx') y y' hy hy']

/-! ## Recognised names -/

namespace FileSystem

variable {fs : FileSystem}

/-- The names of the sum types that a pass over a file recognises. -/
def namesIn (fs : FileSystem) (file : Path) : List String :=
  match fs.readText file with
  | .ok text => (Parsing.parseText text).declarations.map (·.name)
  | .error _ => []

theorem sumTypeIn?_eq (fs : FileSystem) (name : String) (file : Path) :
    fs.sumTypeIn? name file = (fs.readText file).toOption.bind fun text =>
      (Parsing.parseText text).declarations.find? (·.name = name) := by
  rw [sumTypeIn?]
  cases fs.readText file with
  | error => rfl
  | ok text => exact SymbolTable.find?_augment _ _ _ _

theorem mem_namesIn {name : String} {file : Path} {s : SumType} (h : fs.sumTypeIn? name file = some s) :
    name ∈ fs.namesIn file := by
  rw [sumTypeIn?_eq] at h
  rw [namesIn]
  cases htext : fs.readText file with
  | error => simp [htext, Except.toOption] at h
  | ok text =>
    have hfind : (Parsing.parseText text).declarations.find? (·.name = name) = some s := by
      simpa [htext, Except.toOption] using h
    have hname : s.name = name := by simpa using List.find?_some hfind
    exact List.mem_map.2 ⟨s, List.mem_of_find?_eq_some hfind, hname⟩

/-- What a file declares depends on where its path leads. -/
theorem sumTypeIn?_congr {file other : Path} (h : fs.resolve file = fs.resolve other) (name : String) :
    fs.sumTypeIn? name file = fs.sumTypeIn? name other := by
  rw [sumTypeIn?_eq, sumTypeIn?_eq, readText, readText, h]

/-- No name is recognised in two different files. -/
def NoClash (fs : FileSystem) (files : List Path) : Prop :=
  ∀ file ∈ files, ∀ other ∈ files, ∀ name ∈ fs.namesIn file, name ∈ fs.namesIn other →
    fs.resolve file = fs.resolve other

end FileSystem

/-! ## Tables -/

/-- The tables differ at most in the order of their lists. -/
structure SymbolTable.Reordered (t t' : SymbolTable) : Prop where
  sumTypes : t.sumTypes = t'.sumTypes
  typeNames : t.typeNames = t'.typeNames
  files : t.files = t'.files
  diagnostics : t.diagnostics.Perm t'.diagnostics
  fileErrors : t.fileErrors.Perm t'.fileErrors

/-- The figures are the same, and the errors are up to their order. -/
structure Statistics.Reordered (s s' : Statistics) : Prop where
  filesParsed : s.filesParsed = s'.filesParsed
  filesFailed : s.filesFailed = s'.filesFailed
  declarations : s.declarations = s'.declarations
  diagnostics : s.diagnostics = s'.diagnostics
  errors : s.errors.Perm s'.errors

theorem Registry.Ordered.foldl_putNew {types : List SumType} {r : Registry String SumType} (h : r.Ordered) :
    (types.foldl (fun r s => r.putNew s.name s) r).Ordered := by
  induction types generalizing r with
  | nil => exact h
  | cons s types ih => exact ih (h.putNew s.name s)

theorem Reading.ordered_addTo {t : SymbolTable} (r : Reading) (hsums : t.sumTypes.Ordered) (hfiles : t.files.Ordered) :
    (addTo t r).sumTypes.Ordered ∧ (addTo t r).files.Ordered := by
  rw [addTo]
  split
  · rw [SymbolTable.registerFile, SymbolTable.augment_eq]
    exact ⟨hsums.foldl_putNew, hfiles.put _ _⟩
  · exact ⟨hsums, hfiles⟩

namespace Survey

theorem ordered_foldl (s : Survey) {t : SymbolTable} (hsums : t.sumTypes.Ordered) (hfiles : t.files.Ordered) :
    (s.foldl Reading.addTo t).sumTypes.Ordered ∧ (s.foldl Reading.addTo t).files.Ordered := by
  induction s generalizing t with
  | nil => exact ⟨hsums, hfiles⟩
  | cons r s ih =>
    obtain ⟨hsums', hfiles'⟩ := r.ordered_addTo hsums hfiles
    exact ih hsums' hfiles'

theorem ordered_table (s : Survey) : s.table.sumTypes.Ordered ∧ s.table.files.Ordered :=
  s.ordered_foldl Registry.ordered_empty Registry.ordered_empty

variable {fs : FileSystem} {files files' : List Path}

/-- Without a clash it does not matter which file comes first. -/
theorem sumTypes_perm (hperm : files.Perm files') (hclash : fs.NoClash files) :
    (ofFiles fs files).table.sumTypes = (ofFiles fs files').table.sumTypes := by
  refine (ordered_table _).1.ext (ordered_table _).1 fun name => ?_
  rw [table, table, sumTypes_foldl, sumTypes_foldl]
  refine congrArg _ (findSome?_eq_of_perm hperm fun file hfile other hother s s' hs hs' => ?_)
  have hsame := hclash file hfile other hother name (FileSystem.mem_namesIn hs) (FileSystem.mem_namesIn hs')
  rw [FileSystem.sumTypeIn?_congr hsame, hs'] at hs
  exact (Option.some.inj hs).symm

/-- A path that is listed once has the one record it can have. -/
theorem files_perm (hperm : files.Perm files') (honce : (files.map Path.components).Nodup) :
    (ofFiles fs files).table.files = (ofFiles fs files').table.files := by
  refine (ordered_table _).2.ext (ordered_table _).2 fun key => ?_
  rw [table, table, files_foldl, files_foldl]
  have hfilter := hperm.filter (·.components = key)
  refine congrArg (Option.or · _) (findSome?_eq_of_perm
    (((List.reverse_perm _).trans hfilter).trans (List.reverse_perm _).symm) ?_)
  intro file hfile other hother r r' hr hr'
  obtain ⟨hfile, hkey⟩ : file ∈ files ∧ file.components = key := by simpa using hfile
  obtain ⟨hother, hkey'⟩ : other ∈ files ∧ other.components = key := by simpa using hother
  obtain rfl := List.inj_on_of_nodup_map honce hfile hother (hkey.trans hkey'.symm)
  exact Option.some.inj (hr.symm.trans hr')

theorem diagnostics_perm (hperm : files.Perm files') :
    (ofFiles fs files).table.diagnostics.Perm (ofFiles fs files').table.diagnostics := by
  rw [table, table, diagnostics_foldl, diagnostics_foldl]
  exact (hperm.flatMap_right _).append_left _

theorem fileErrors_perm (hperm : files.Perm files') :
    (ofFiles fs files).table.fileErrors.Perm (ofFiles fs files').table.fileErrors := by
  rw [table, table, fileErrors_foldl, fileErrors_foldl]
  exact (hperm.filterMap _).append_left _

theorem typeNames_eq (files : List Path) :
    (ofFiles fs files).table.typeNames = Registry.sortedKeys (ofFiles fs files).table.sumTypes.keys := by
  obtain ⟨-, -, hstrong, hweak, -⟩ := foldl_frame fs files .empty
  rw [SymbolTable.typeNames, table, hstrong, hweak]
  simp [SymbolTable.empty, Registry.empty, Registry.keys]

theorem table_reordered (hperm : files.Perm files') (honce : (files.map Path.components).Nodup)
    (hclash : fs.NoClash files) : (ofFiles fs files).table.Reordered (ofFiles fs files').table where
  sumTypes := sumTypes_perm hperm hclash
  typeNames := by rw [typeNames_eq, typeNames_eq, sumTypes_perm hperm hclash]
  files := files_perm hperm honce
  diagnostics := diagnostics_perm hperm
  fileErrors := fileErrors_perm hperm

theorem statistics_reordered (hperm : files.Perm files') :
    (ofFiles fs files).statistics.Reordered (ofFiles fs files').statistics := by
  have hreadings : (ofFiles fs files).Perm (ofFiles fs files') := hperm.map _
  have hparsed : (ofFiles fs files).parsedFiles.Perm (ofFiles fs files').parsedFiles := hreadings.filterMap _
  exact ⟨hparsed.length_eq, hparsed.countP_eq _, (hparsed.flatMap_right _).length_eq,
    (diagnostics_perm hperm).length_eq, hreadings.filterMap _⟩

end Survey

/-! ## Rebuilding -/

namespace Project

/-- Two projects that list the same source files, each once, differ after a
rebuild at most in the order of diagnostics and errors, unless a name is
recognised in two different files. -/
theorem rebuild_reordered {p p' : Project} {fs : FileSystem} (hperm : p.sources.Perm p'.sources)
    (honce : (p.sources.map Path.components).Nodup) (hclash : fs.NoClash p.sources) (now now' : Nat) :
    (p.rebuild fs now).1.snapshot.table.Reordered (p'.rebuild fs now').1.snapshot.table ∧
      (p.rebuild fs now).2.Reordered (p'.rebuild fs now').2 :=
  ⟨Survey.table_reordered hperm honce hclash, Survey.statistics_reordered hperm⟩

/-- A file in order and one whose pass stops behind its first declaration. -/
def twoFiles : FileSystem where
  root := .directory
    [("a.epoch", .file "sumtype A = B".toUTF8), ("b.epoch", .file "sumtype C = D ; sumtype A = B".toUTF8)]

theorem rebuild_reordered_two :
    let a := FileSystem.pathOf ["a.epoch"]
    let b := FileSystem.pathOf ["b.epoch"]
    let p : Project := { config := {}, visits := [.path a, .path b] }
    let p' : Project := { config := {}, visits := [.path b, .path a] }
    p.sources = [a, b] ∧ p'.sources = [b, a] ∧ twoFiles.namesIn a = ["A"] ∧ twoFiles.namesIn b = ["C"] ∧
      (p.rebuild twoFiles 0).1.snapshot.table.Reordered (p'.rebuild twoFiles 0).1.snapshot.table ∧
        (p.rebuild twoFiles 0).2.Reordered (p'.rebuild twoFiles 0).2 := by
  intro a b p p'
  have hplain : twoFiles.root.isPlain = true := by decide
  have hfs : twoFiles.Proper := ⟨rfl, Entry.wellNamed_of_isPlain hplain⟩
  have hreadable : ∀ {location e}, twoFiles.root.get? location = some e → twoFiles.Readable location e :=
    hfs.readable_of_shallow (Entry.linkFree_of_isPlain hplain) (by decide) (List.forall_mem_nil _) rfl
  have hnamesIn : ∀ {location content text}, twoFiles.root.get? location = some (.file content) →
      String.fromUTF8? content = some text →
      twoFiles.namesIn (FileSystem.pathOf location) = (Parsing.parseText text).declarations.map (·.name) := by
    intro location content text hget htext
    rw [FileSystem.namesIn, (hreadable hget).readText hfs List.not_mem_nil htext]
  have ha : twoFiles.namesIn a = ["A"] := by
    rw [hnamesIn rfl (by decide +kernel : _ = some "sumtype A = B")]
    decide +kernel
  have hb : twoFiles.namesIn b = ["C"] := by
    rw [hnamesIn rfl (by decide +kernel : _ = some "sumtype C = D ; sumtype A = B")]
    decide +kernel
  have hsource : ({} : Config).isSource a = true ∧ ({} : Config).isSource b = true := by decide +kernel
  have hsources : p.sources = [a, b] := by simp [p, sources, Visit.paths, hsource]
  have hsources' : p'.sources = [b, a] := by simp [p', sources, Visit.paths, hsource]
  refine ⟨hsources, hsources', ha, hb, rebuild_reordered ?_ ?_ ?_ 0 0⟩
  · rw [hsources, hsources']
    exact .swap b a []
  · rw [hsources]
    decide
  · rw [hsources]
    simp [FileSystem.NoClash, ha, hb]

end Project

end SourceModel
