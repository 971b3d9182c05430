import SourceModel.Project.Basic
import Mathlib.Data.List.Induction
/-!
# Runs of a project

A host edits files, lets time pass, asks for rebuilds, registers declarations of
its own and takes snapshots, in any order. Its state is the files, the clock,
the project and the snapshots it took, with a log of the rebuilds and the
registrations so far. A run is any list of such actions from a new project.
-/

namespace SourceModel

/-- A rebuild as the log remembers it: whether it went through the gate, when it
was, and the files it read. -/
structure Rebuild where
  throughGate : Bool
  time : Nat
  files : FileSystem

inductive Event where
  | rebuilt (rebuild : Rebuild)
  | registered (key : String) (declaration : Declaration)

inductive Action where
  /-- The files become these. -/
  | edit (files : FileSystem)
  /-- The clock moves forward. -/
  | advance (span : Nat)
  | rebuildIfOutdated
  | rebuild
  | register (key : String) (declaration : Declaration)
  | takeSnapshot
  | askOutdated

structure Host where
  files : FileSystem
  now : Nat
  project : Project
  /-- The snapshots taken, oldest first. -/
  held : List Snapshot := []
  log : List Event := []

namespace Host

/-- A host of a new project. -/
def start (config : Config) (visits : List Visit) (files : FileSystem) (now : Nat) : Host :=
  { files, now, project := { config, visits } }

def act (s : Host) : Action → Host
  | .edit files => { s with files }
  | .advance span => { s with now := s.now + span }
  | .rebuildIfOutdated =>
    match s.project.rebuildIfOutdated s.files s.now with
    | (project, some _) => { s with project, log := s.log ++ [.rebuilt ⟨true, s.now, s.files⟩] }
    | (project, none) => { s with project }
  | .rebuild =>
    { s with
      project := (s.project.rebuild s.files s.now).1
      log := s.log ++ [.rebuilt ⟨false, s.now, s.files⟩] }
  | .register key d => { s with project := s.project.register key d, log := s.log ++ [.registered key d] }
  | .takeSnapshot => { s with held := s.held ++ [s.project.snapshot] }
  | .askOutdated => s

/-- The state after some actions. -/
def after (s : Host) (actions : List Action) : Host :=
  actions.foldl act s

/-- What holds at the start and is kept by every action holds after every run. -/
theorem after_induction {P : Host → Prop} {s : Host} (hstart : P s) (hact : ∀ s a, P s → P (s.act a))
    (actions : List Action) : P (s.after actions) := by
  induction actions generalizing s with
  | nil => exact hstart
  | cons a actions ih => exact ih (hact s a hstart)

theorem after_append (s : Host) (actions more : List Action) :
    s.after (actions ++ more) = (s.after actions).after more :=
  List.foldl_append

end Host

/-! ## One action -/

namespace Project

theorem isOutdated_iff (p : Project) (now : Nat) :
    p.isOutdated now = true ↔ ∀ last, p.lastRebuild = some last → last + stalenessThreshold ≤ now := by
  rw [isOutdated]
  cases p.lastRebuild with
  | none => simp
  | some last =>
    rw [Option.all_some, decide_eq_true_iff]
    exact ⟨fun h _ heq => Option.some.inj heq ▸ h, fun h => h last rfl⟩

/-- The gate opens exactly when the project is outdated. -/
theorem rebuildIfOutdated_eq (p : Project) (fs : FileSystem) (now : Nat) :
    p.rebuildIfOutdated fs now =
      if p.isOutdated now then ((p.rebuild fs now).1, some (p.rebuild fs now).2) else (p, none) := by
  have hiff := isOutdated_iff p now
  rw [rebuildIfOutdated]
  cases hlast : p.lastRebuild with
  | none => rw [if_pos (hiff.2 (by simp [hlast]))]
  | some last =>
    by_cases h : now < last + stalenessThreshold
    · have hfresh : ¬ p.isOutdated now = true := fun hold => Nat.not_lt.2 (hiff.1 hold last hlast) h
      rw [if_neg hfresh]
      exact if_pos h
    · have hold : p.isOutdated now = true := hiff.2 (by simpa [hlast] using h)
      rw [if_pos hold]
      exact if_neg h

end Project

namespace Host

/-- An action is a rebuild, which the gate lets through only when the project is
outdated, or a registration, or it leaves the project and the log alone. -/
theorem act_cases (s : Host) (a : Action) :
    (∃ throughGate, (throughGate = true → s.project.isOutdated s.now = true) ∧
      s.act a = { s with
        project := (s.project.rebuild s.files s.now).1
        log := s.log ++ [.rebuilt ⟨throughGate, s.now, s.files⟩] }) ∨
    (∃ key d, s.act a = { s with
      project := s.project.register key d
      log := s.log ++ [.registered key d] }) ∨
    ((s.act a).project = s.project ∧ (s.act a).log = s.log ∧ s.now ≤ (s.act a).now) := by
  cases a with
  | edit files => exact .inr (.inr ⟨rfl, rfl, Nat.le_refl _⟩)
  | advance span => exact .inr (.inr ⟨rfl, rfl, Nat.le_add_right _ _⟩)
  | rebuildIfOutdated =>
    by_cases h : s.project.isOutdated s.now = true
    · exact .inl ⟨true, fun _ => h, by simp [act, Project.rebuildIfOutdated_eq, h]⟩
    · refine .inr (.inr ?_)
      simp [act, Project.rebuildIfOutdated_eq, h]
  | rebuild => exact .inl ⟨false, nofun, rfl⟩
  | register key d => exact .inr (.inl ⟨key, d, rfl⟩)
  | takeSnapshot => exact .inr (.inr ⟨rfl, rfl, Nat.le_refl _⟩)
  | askOutdated => exact .inr (.inr ⟨rfl, rfl, Nat.le_refl _⟩)

end Host

/-! ## The log -/

/-- The most recent rebuild of a log, with what was logged since. -/
structure Latest (log : List Event) (r : Rebuild) (since : List Event) : Prop where
  split : ∃ before, log = before ++ .rebuilt r :: since
  last : ∀ r', .rebuilt r' ∉ since

theorem Latest.mem {log since : List Event} {r : Rebuild} (h : Latest log r since) : .rebuilt r ∈ log := by
  obtain ⟨before, rfl⟩ := h.split
  simp

theorem latest_rebuilt {log since : List Event} {r new : Rebuild} :
    Latest (log ++ [.rebuilt new]) r since ↔ r = new ∧ since = [] := by
  constructor
  · rintro ⟨⟨before, hsplit⟩, hlast⟩
    rcases List.eq_nil_or_concat since with rfl | ⟨since, e, rfl⟩
    · have hnew := (List.append_inj' hsplit rfl).2
      simp only [List.cons.injEq, Event.rebuilt.injEq, and_true] at hnew
      exact ⟨hnew.symm, rfl⟩
    · rw [List.concat_eq_append, ← List.cons_append, ← List.append_assoc] at hsplit
      have hnew := (List.cons.inj (List.append_inj' hsplit rfl).2).1
      exact absurd (by simp [hnew]) (hlast new)
  · rintro ⟨rfl, rfl⟩
    exact ⟨⟨log, rfl⟩, by simp⟩

theorem latest_registered {log since : List Event} {r : Rebuild} {key : String} {d : Declaration} :
    Latest (log ++ [.registered key d]) r since ↔
      ∃ earlier, since = earlier ++ [.registered key d] ∧ Latest log r earlier := by
  constructor
  · rintro ⟨⟨before, hsplit⟩, hlast⟩
    rcases List.eq_nil_or_concat since with rfl | ⟨since, e, rfl⟩
    · have hnew := (List.append_inj' hsplit rfl).2
      simp at hnew
    · rw [List.concat_eq_append, ← List.cons_append, ← List.append_assoc] at hsplit
      obtain ⟨hlog, hnew⟩ := List.append_inj' hsplit rfl
      refine ⟨since, by rw [hnew, List.concat_eq_append], ⟨before, hlog⟩, fun r' hr' => hlast r' ?_⟩
      simp [hr']
  · rintro ⟨earlier, rfl, ⟨before, rfl⟩, hlast⟩
    exact ⟨⟨before, by simp⟩, by simpa using hlast⟩

theorem exists_latest {log : List Event} {r : Rebuild} (h : .rebuilt r ∈ log) : ∃ r since, Latest log r since := by
  induction log using List.reverseRecOn with
  | nil => cases h
  | append_singleton log e ih =>
    cases e with
    | rebuilt new => exact ⟨new, [], latest_rebuilt.2 ⟨rfl, rfl⟩⟩
    | registered key d =>
      obtain ⟨r', since, hlatest⟩ := ih (by simpa using h)
      exact ⟨r', since ++ [.registered key d], latest_registered.2 ⟨since, rfl, hlatest⟩⟩

/-! ## What a project holds -/

/-- What an event since the last rebuild does to the table. -/
def Event.apply (t : SymbolTable) : Event → SymbolTable
  | .registered key d => t.registerAs key d
  | .rebuilt _ => t

/-- The table that a new project with this configuration and these visits builds
from the files. -/
def freshTable (config : Config) (visits : List Visit) (files : FileSystem) : SymbolTable :=
  (({ config, visits } : Project).rebuild files 0).1.snapshot.table

/-- The project is as its log says: the time of the last rebuild, and the table
that rebuild made with the registrations since. -/
structure Host.Follows (config : Config) (visits : List Visit) (s : Host) : Prop where
  sameConfig : s.project.config = config
  sameVisits : s.project.visits = visits
  rebuilt : ∀ r since, Latest s.log r since → s.project.lastRebuild = some r.time ∧
    s.project.snapshot.table = since.foldl Event.apply (freshTable config visits r.files)
  unbuilt : (∀ r, .rebuilt r ∉ s.log) → s.project.lastRebuild = none ∧
    s.project.snapshot.table = s.log.foldl Event.apply .empty

namespace Host

variable {config : Config} {visits : List Visit}

theorem Follows.rebuild_table {s : Host} (h : s.Follows config visits) (now : Nat) :
    (s.project.rebuild s.files now).1.snapshot.table = freshTable config visits s.files := by
  rw [← h.sameConfig, ← h.sameVisits]
  rfl

theorem Follows.act {s : Host} (h : s.Follows config visits) (a : Action) : (s.act a).Follows config visits := by
  rcases act_cases s a with ⟨throughGate, -, heq⟩ | ⟨key, d, heq⟩ | ⟨hproject, hlog, -⟩
  · rw [heq]
    refine ⟨h.sameConfig, h.sameVisits, fun r since hlatest => ?_, fun hnone => ?_⟩
    · obtain ⟨rfl, rfl⟩ := latest_rebuilt.1 hlatest
      exact ⟨rfl, h.rebuild_table s.now⟩
    · exact absurd (by simp) (hnone ⟨throughGate, s.now, s.files⟩)
  · rw [heq]
    refine ⟨h.sameConfig, h.sameVisits, fun r since hlatest => ?_, fun hnone => ?_⟩
    · obtain ⟨earlier, rfl, hearlier⟩ := latest_registered.1 hlatest
      obtain ⟨hlast, htable⟩ := h.rebuilt r earlier hearlier
      refine ⟨hlast, ?_⟩
      rw [List.foldl_append, ← htable]
      rfl
    · obtain ⟨hlast, htable⟩ := h.unbuilt fun r hr => hnone r (by simp [hr])
      refine ⟨hlast, ?_⟩
      simp only [List.foldl_append, ← htable]
      rfl
  · obtain ⟨hconfig, hvisits, hrebuilt, hunbuilt⟩ := h
    constructor
    · rw [hproject, hconfig]
    · rw [hproject, hvisits]
    · rw [hproject, hlog]
      exact hrebuilt
    · rw [hproject, hlog]
      exact hunbuilt

theorem follows_start (config : Config) (visits : List Visit) (files : FileSystem) (now : Nat) :
    (start config visits files now).Follows config visits := by
  refine ⟨rfl, rfl, fun r since hlatest => ?_, fun _ => ⟨rfl, rfl⟩⟩
  exact absurd hlatest.mem List.not_mem_nil

theorem follows_after (config : Config) (visits : List Visit) (files : FileSystem) (now : Nat)
    (actions : List Action) : ((start config visits files now).after actions).Follows config visits :=
  after_induction (follows_start config visits files now) (fun _ a h => h.act a) actions

end Host

end SourceModel
