import SourceModel.Proofs.Project.Runs
/-!
# What a snapshot shows

The current snapshot shows the table of the last rebuild with the host's
registrations since, and a snapshot that was taken shows what it showed then.

Snapshots share their tables. A table lives in a cell, the project and every
snapshot taken refer to cells, and a registration writes into the project's cell
only while no snapshot refers to it; otherwise it writes into a copy. `Cells`
keeps such a store beside the host's values, and `Cells.Show` says that the
references read as those values.
-/

namespace SourceModel

/-! ## Shared tables -/

structure Cells where
  tables : List SymbolTable
  /-- The cell the project refers to. -/
  current : Nat
  /-- The cells the snapshots refer to, oldest first. -/
  handles : List Nat

namespace Cells

/-- A new project refers to an empty table. -/
def start : Cells :=
  ⟨[.empty], 0, []⟩

/-- The project refers to a new cell from now on. -/
def install (c : Cells) (table : SymbolTable) : Cells :=
  { c with tables := c.tables ++ [table], current := c.tables.length }

/-- Copies the table of the project when a snapshot refers to it. -/
def unshare (c : Cells) : Cells :=
  if c.current ∈ c.handles then (c.tables[c.current]?).elim c c.install else c

/-- Changes the table of the project in its place. -/
def modify (c : Cells) (f : SymbolTable → SymbolTable) : Cells :=
  { c with tables := c.tables.modify c.current f }

/-- What an action of the host does to the cells. -/
def act (c : Cells) (s : Host) : Action → Cells
  | .rebuildIfOutdated =>
    if (s.project.rebuildIfOutdated s.files s.now).2.isSome then c.install (s.project.survey s.files).table else c
  | .rebuild => c.install (s.project.survey s.files).table
  | .register key d => c.unshare.modify (·.registerAs key d)
  | .takeSnapshot => { c with handles := c.handles ++ [c.current] }
  | _ => c

/-- The cells after some actions of the host. -/
def after (c : Cells) (s : Host) : List Action → Cells
  | [] => c
  | a :: actions => (c.act s a).after (s.act a) actions

/-- The references read as the values of the host. -/
structure Show (c : Cells) (s : Host) : Prop where
  current : c.tables[c.current]? = some s.project.snapshot.table
  handles : c.handles.map (c.tables[·]?) = s.held.map fun snapshot => some snapshot.table

theorem Show.handle_lt {c : Cells} {s : Host} (h : c.Show s) {i : Nat} (hi : i ∈ c.handles) :
    i < c.tables.length := by
  have hmem : c.tables[i]? ∈ s.held.map fun snapshot => some snapshot.table :=
    h.handles ▸ List.mem_map_of_mem hi
  obtain ⟨snapshot, -, heq⟩ := List.mem_map.1 hmem
  exact (List.getElem?_eq_some_iff.1 heq.symm).1

/-- A new cell changes no old one. -/
theorem Show.install {c : Cells} {s s' : Host} (h : c.Show s) {table : SymbolTable}
    (htable : s'.project.snapshot.table = table) (hheld : s'.held = s.held) : (c.install table).Show s' := by
  refine ⟨by simp [Cells.install, htable], ?_⟩
  rw [hheld, ← h.handles]
  refine List.map_congr_left fun i hi => ?_
  exact List.getElem?_append_left (h.handle_lt hi)

/-- After copying, the project's cell is its own. -/
theorem Show.unshare {c : Cells} {s : Host} (h : c.Show s) :
    c.unshare.Show s ∧ c.unshare.current ∉ c.unshare.handles := by
  unfold Cells.unshare
  split
  · rw [h.current]
    refine ⟨h.install rfl rfl, fun hmem => ?_⟩
    exact Nat.lt_irrefl _ (h.handle_lt hmem)
  · exact ⟨h, ‹_›⟩

/-- A write into a cell of its own is not seen through another reference. -/
theorem Show.modify {c : Cells} {s s' : Host} (h : c.Show s) (hown : c.current ∉ c.handles)
    {f : SymbolTable → SymbolTable} (htable : s'.project.snapshot.table = f s.project.snapshot.table)
    (hheld : s'.held = s.held) : (c.modify f).Show s' := by
  constructor
  · simp [Cells.modify, h.current, htable]
  · rw [hheld, ← h.handles]
    refine List.map_congr_left fun i hi => ?_
    have hne : c.current ≠ i := fun heq => hown (heq ▸ hi)
    simp [Cells.modify, hne]

theorem Show.act {c : Cells} {s : Host} (h : c.Show s) (a : Action) : (c.act s a).Show (s.act a) := by
  cases a with
  | edit files => exact ⟨h.current, h.handles⟩
  | advance span => exact ⟨h.current, h.handles⟩
  | rebuildIfOutdated =>
    simp only [Cells.act, Host.act, Project.rebuildIfOutdated_eq]
    by_cases hopen : s.project.isOutdated s.now = true
    · simp only [hopen, if_true, Option.isSome_some]
      exact h.install rfl rfl
    · simp only [hopen, if_false, Option.isSome_none, Bool.false_eq_true]
      exact ⟨h.current, h.handles⟩
  | rebuild => exact h.install rfl rfl
  | register key d =>
    obtain ⟨hshow, hown⟩ := h.unshare
    exact hshow.modify hown rfl rfl
  | takeSnapshot =>
    refine ⟨h.current, ?_⟩
    simp only [Cells.act, Host.act, List.map_append, h.handles]
    simp [h.current]
  | askOutdated => exact ⟨h.current, h.handles⟩

theorem Show.after {c : Cells} {s : Host} (h : c.Show s) (actions : List Action) :
    (c.after s actions).Show (s.after actions) := by
  induction actions generalizing c s with
  | nil => exact h
  | cons a actions ih => exact ih (h.act a)

theorem show_start (config : Config) (visits : List Visit) (files : FileSystem) (now : Nat) :
    start.Show (.start config visits files now) :=
  ⟨rfl, rfl⟩

/-- A reference that was handed out reads as the snapshot taken with it. -/
theorem Show.handle {c : Cells} {s : Host} (h : c.Show s) {k : Nat} {snapshot : Snapshot}
    (hk : s.held[k]? = some snapshot) : (c.handles[k]?).bind (c.tables[·]?) = some snapshot.table := by
  have hget := congrArg (·[k]?) h.handles
  simp only [List.getElem?_map, hk, Option.map_some] at hget
  obtain ⟨i, hi, hread⟩ := Option.map_eq_some_iff.1 hget
  rw [hi, Option.bind_some, hread]

end Cells

/-! ## Snapshots taken -/

namespace Host

theorem held_act (s : Host) (a : Action) : s.held <+: (s.act a).held := by
  cases a with
  | rebuildIfOutdated =>
    simp only [act, Project.rebuildIfOutdated_eq]
    by_cases hopen : s.project.isOutdated s.now = true <;> simp [hopen]
  | takeSnapshot => exact List.prefix_append _ _
  | _ => exact List.prefix_rfl

/-- Snapshots stay in the order in which they were taken. -/
theorem held_after (s : Host) (actions : List Action) : s.held <+: (s.after actions).held := by
  induction actions generalizing s with
  | nil => exact List.prefix_rfl
  | cons a actions ih => exact (held_act s a).trans (ih (s.act a))

theorem held_takeSnapshot (s : Host) (before more : List Action) :
    (s.after (before ++ .takeSnapshot :: more)).held[(s.after before).held.length]? =
      some (s.after before).project.snapshot := by
  obtain ⟨later, hheld⟩ := held_after ((s.after before).act .takeSnapshot) more
  have hafter : s.after (before ++ .takeSnapshot :: more) = ((s.after before).act .takeSnapshot).after more :=
    after_append s before _
  rw [hafter, ← hheld, act]
  simp

/-! ## The whole run -/

theorem Follows.table {config : Config} {visits : List Visit} {s : Host} (h : s.Follows config visits) :
    (∃ r since, Latest s.log r since ∧
      s.project.snapshot.table = since.foldl Event.apply (freshTable config visits r.files)) ∨
    ((∀ r, .rebuilt r ∉ s.log) ∧ s.project.snapshot.table = s.log.foldl Event.apply .empty) := by
  by_cases hsome : ∃ r, .rebuilt r ∈ s.log
  · obtain ⟨r, hr⟩ := hsome
    obtain ⟨r, since, hlatest⟩ := exists_latest hr
    exact .inl ⟨r, since, hlatest, (h.rebuilt r since hlatest).2⟩
  · have hnone : ∀ r, .rebuilt r ∉ s.log := fun r hr => hsome ⟨r, hr⟩
    exact .inr ⟨hnone, (h.unbuilt hnone).2⟩

/-- After every run the current snapshot shows the table that a new project
builds from the files of the most recent rebuild, with the host's registrations
since, or these alone when there was no rebuild; the project's cell reads the
same. A snapshot taken during the run is still what it was, and so is what its
cell reads. A rebuild depends on nothing but the files. -/
theorem snapshot_run (config : Config) (visits : List Visit) (files : FileSystem) (now : Nat)
    (actions : List Action) :
    let start := Host.start config visits files now
    let s := start.after actions
    let c := Cells.start.after start actions
    ((∃ r since, Latest s.log r since ∧
        s.project.snapshot.table = since.foldl Event.apply (freshTable config visits r.files)) ∨
      ((∀ r, .rebuilt r ∉ s.log) ∧ s.project.snapshot.table = s.log.foldl Event.apply .empty)) ∧
    c.tables[c.current]? = some s.project.snapshot.table ∧
    (∀ before more, actions = before ++ .takeSnapshot :: more →
      s.held[(start.after before).held.length]? = some (start.after before).project.snapshot ∧
      (c.handles[(start.after before).held.length]?).bind (c.tables[·]?) =
        some (start.after before).project.snapshot.table) ∧
    (s.act .rebuild).project.snapshot.table = freshTable config visits s.files ∧
    ∀ actions', (start.after actions').files = s.files →
      ((start.after actions').act .rebuild).project.snapshot.table = (s.act .rebuild).project.snapshot.table := by
  intro start s c
  have hfollows : ∀ actions, (start.after actions).Follows config visits := follows_after config visits files now
  have hshow : c.Show s := (Cells.show_start config visits files now).after actions
  refine ⟨(hfollows actions).table, hshow.current, ?_, (hfollows actions).rebuild_table s.now, ?_⟩
  · rintro before more rfl
    have hheld := held_takeSnapshot start before more
    exact ⟨hheld, hshow.handle hheld⟩
  · intro actions' hfiles
    calc ((start.after actions').act .rebuild).project.snapshot.table
        = freshTable config visits (start.after actions').files := (hfollows actions').rebuild_table _
      _ = freshTable config visits s.files := by rw [hfiles]
      _ = (s.act .rebuild).project.snapshot.table := ((hfollows actions).rebuild_table _).symm

/-- A registration after a snapshot is not seen through it, and a rebuild drops
both. -/
theorem snapshot_run_register :
    let d := Declaration.globalVariable ⟨"x", "Int"⟩
    let actions := [Action.register "x" d, .takeSnapshot, .register "y" d, .rebuild]
    let s := (Host.start {} [] {} 0).after actions
    let c := Cells.start.after (Host.start {} [] {} 0) actions
    actions = [.register "x" d] ++ .takeSnapshot :: [.register "y" d, .rebuild] ∧
      (c.handles[0]?).bind (c.tables[·]?) = some (SymbolTable.empty.registerAs "x" d) ∧
      s.project.snapshot.table = freshTable {} [] {} := by
  intro d actions s c
  obtain ⟨-, -, hheld, -, -⟩ := snapshot_run {} [] {} 0 actions
  obtain ⟨-, hread⟩ := hheld [.register "x" d] [.register "y" d, .rebuild] rfl
  exact ⟨rfl, hread, rfl⟩

end Host

end SourceModel
