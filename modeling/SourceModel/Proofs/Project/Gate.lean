import SourceModel.Proofs.Project.Runs
/-!
# The gate

A rebuild through the gate happens when the latest rebuild, through the gate or
not, is fifteen seconds old, and both ways to ask about it say so. Rebuilds
through the gate therefore lie fifteen seconds apart, however many forced ones
come between them, which bounds their number in any window of time.
-/

namespace SourceModel.Host

open Project (stalenessThreshold)

/-- No rebuild has happened yet, or the latest is at least fifteen seconds old. -/
def Due (s : Host) : Prop :=
  (∀ r, .rebuilt r ∉ s.log) ∨ ∃ r since, Latest s.log r since ∧ r.time + 15_000_000_000 ≤ s.now

/-- The time of a rebuild through the gate. -/
def gateTime? : Event → Option Nat
  | .rebuilt r => if r.throughGate then some r.time else none
  | .registered _ _ => none

/-- The times of the rebuilds through the gate, in order. -/
def gateTimes (log : List Event) : List Nat :=
  log.filterMap gateTime?

/-! ## Spacing -/

/-- The clock is not behind the last rebuild, and rebuilds through the gate lie
apart, none after the last rebuild. -/
structure Spaced (s : Host) : Prop where
  notAhead : ∀ last, s.project.lastRebuild = some last → last ≤ s.now
  covered : ∀ t ∈ gateTimes s.log, ∃ last, s.project.lastRebuild = some last ∧ t ≤ last
  apart : (gateTimes s.log).Pairwise fun t t' => t + stalenessThreshold ≤ t'

theorem Spaced.act {s : Host} (h : s.Spaced) (a : Action) : (s.act a).Spaced := by
  rcases act_cases s a with ⟨throughGate, hgate, heq⟩ | ⟨key, d, heq⟩ | ⟨hproject, hlog, hnow⟩
  · have hcovered : ∀ t ∈ gateTimes s.log, t ≤ s.now := by
      intro t ht
      obtain ⟨last, hlast, hle⟩ := h.covered t ht
      exact Nat.le_trans hle (h.notAhead last hlast)
    have htimes : gateTimes (s.log ++ [.rebuilt ⟨throughGate, s.now, s.files⟩]) =
        gateTimes s.log ++ if throughGate then [s.now] else [] := by
      cases throughGate <;> simp [gateTimes, gateTime?]
    rw [heq]
    refine ⟨?_, ?_, ?_⟩
    · rintro last ⟨⟩
      exact Nat.le_refl _
    · intro t ht
      refine ⟨s.now, rfl, ?_⟩
      rw [htimes, List.mem_append] at ht
      rcases ht with ht | ht
      · exact hcovered t ht
      · cases throughGate <;> simp_all
    · rw [htimes]
      cases throughGate with
      | false => simpa using h.apart
      | true =>
        refine List.pairwise_append.2 ⟨h.apart, List.pairwise_singleton _ _, fun t ht t' ht' => ?_⟩
        obtain ⟨last, hlast, hle⟩ := h.covered t ht
        have hold := (Project.isOutdated_iff _ _).1 (hgate rfl) last hlast
        obtain rfl : t' = s.now := by simpa using ht'
        omega
  · have htimes : gateTimes (s.log ++ [.registered key d]) = gateTimes s.log := by simp [gateTimes, gateTime?]
    rw [heq]
    refine ⟨h.notAhead, ?_, ?_⟩
    · rw [htimes]
      exact h.covered
    · rw [htimes]
      exact h.apart
  · refine ⟨?_, ?_, ?_⟩
    · rw [hproject]
      exact fun last hlast => Nat.le_trans (h.notAhead last hlast) hnow
    · rw [hproject, hlog]
      exact h.covered
    · rw [hlog]
      exact h.apart

theorem spaced_after (config : Config) (visits : List Visit) (files : FileSystem) (now : Nat)
    (actions : List Action) : ((start config visits files now).after actions).Spaced := by
  refine after_induction ⟨?_, ?_, ?_⟩ (fun _ a h => h.act a) actions
  · rintro last ⟨⟩
  · simp [start, gateTimes]
  · exact .nil

/-- Times that lie `gap` apart fill a window of length `span` so often at most. -/
theorem length_le_of_apart {gap : Nat} (hgap : 0 < gap) (times : List Nat)
    (hapart : times.Pairwise fun t t' => t + gap ≤ t') (first span : Nat)
    (hwindow : ∀ t ∈ times, first ≤ t ∧ t ≤ first + span) : times.length ≤ span / gap + 1 := by
  induction times generalizing first span with
  | nil => exact Nat.zero_le _
  | cons t times ih =>
    obtain ⟨hfirst, hrest⟩ := List.pairwise_cons.1 hapart
    cases times with
    | nil => simp
    | cons t' times =>
      -- The others lie in the window that starts one gap later.
      obtain ⟨hle, -⟩ := hwindow t (by simp)
      have hgap' := hfirst t' (by simp)
      have hspan : gap ≤ span := by
        have := (hwindow t' (by simp)).2
        omega
      have hlater : ∀ u ∈ t' :: times, first + gap ≤ u ∧ u ≤ first + gap + (span - gap) := by
        intro u hu
        have := hfirst u hu
        have := (hwindow u (List.mem_cons_of_mem _ hu)).2
        omega
      have hcount := ih hrest (first + gap) (span - gap) hlater
      rw [List.length_cons, Nat.div_eq_sub_div hgap hspan]
      omega

/-! ## The gate over a run -/

theorem stalenessThreshold_eq : stalenessThreshold = 15_000_000_000 := by
  decide

theorem Follows.isOutdated_iff_due {config : Config} {visits : List Visit} {s : Host} (h : s.Follows config visits) :
    s.project.isOutdated s.now = true ↔ s.Due := by
  rw [Project.isOutdated_iff, stalenessThreshold_eq]
  constructor
  · intro hold
    by_cases hsome : ∃ r, .rebuilt r ∈ s.log
    · obtain ⟨r, hr⟩ := hsome
      obtain ⟨r, since, hlatest⟩ := exists_latest hr
      exact .inr ⟨r, since, hlatest, hold _ (h.rebuilt r since hlatest).1⟩
    · exact .inl fun r hr => hsome ⟨r, hr⟩
  · rintro (hnone | ⟨r, since, hlatest, hold⟩) last hlast
    · rw [(h.unbuilt hnone).1] at hlast
      cases hlast
    · rw [(h.rebuilt r since hlatest).1] at hlast
      cases hlast
      exact hold

/-- At every point of every run, a rebuild through the gate happens exactly when
one is due, and the other test of the gate says the same. A call that is not let
through leaves the project as it is; a rebuild is stamped with its time. In a
window of time of length `span` there are at most `span / 15 s + 1` rebuilds
through the gate. -/
theorem gate_run (config : Config) (visits : List Visit) (files : FileSystem) (now : Nat) (actions : List Action) :
    let s := (start config visits files now).after actions
    ((s.project.rebuildIfOutdated s.files s.now).2.isSome = true ↔ s.Due) ∧
    (s.project.isOutdated s.now = true ↔ s.Due) ∧
    (¬ s.Due → (s.project.rebuildIfOutdated s.files s.now).1 = s.project) ∧
    (s.Due → (s.project.rebuildIfOutdated s.files s.now).1.lastRebuild = some s.now) ∧
    (s.project.rebuild s.files s.now).1.lastRebuild = some s.now ∧
    ∀ first span,
      (gateTimes s.log).countP (fun t => first ≤ t ∧ t ≤ first + span) ≤ span / 15_000_000_000 + 1 := by
  intro s
  have hdue : s.project.isOutdated s.now = true ↔ s.Due :=
    (follows_after config visits files now actions).isOutdated_iff_due
  have hspaced : s.Spaced := spaced_after config visits files now actions
  refine ⟨?_, hdue, fun hgated => ?_, fun hopen => ?_, rfl, fun first span => ?_⟩
  · rw [← hdue, Project.rebuildIfOutdated_eq]
    by_cases h : s.project.isOutdated s.now = true <;> simp [h]
  · rw [Project.rebuildIfOutdated_eq, if_neg (mt hdue.1 hgated)]
  · rw [Project.rebuildIfOutdated_eq, if_pos (hdue.2 hopen)]
    rfl
  · have hpos : 0 < stalenessThreshold := by decide
    rw [List.countP_eq_length_filter, ← stalenessThreshold_eq]
    refine length_le_of_apart hpos _ (hspaced.apart.filter _) first span fun t ht => ?_
    simpa using (List.mem_filter.1 ht).2

/-- The gate opens at the threshold, not a nanosecond before. -/
theorem gate_run_threshold :
    let early := (start {} [] {} 7).after [.rebuildIfOutdated, .advance 14_999_999_999]
    let late := (start {} [] {} 7).after [.rebuildIfOutdated, .advance 15_000_000_000]
    ¬ early.Due ∧ (early.project.rebuildIfOutdated early.files early.now).1 = early.project ∧
      late.Due ∧ (late.project.rebuildIfOutdated late.files late.now).1.lastRebuild = some 15_000_000_007 := by
  intro early late
  obtain ⟨-, hearly, hgated, -⟩ := gate_run {} [] {} 7 [.rebuildIfOutdated, .advance 14_999_999_999]
  obtain ⟨-, hlate, -, hstamped, -⟩ := gate_run {} [] {} 7 [.rebuildIfOutdated, .advance 15_000_000_000]
  have hfresh : ¬ early.Due := fun hdue => absurd (hearly.2 hdue) (by decide +kernel)
  have hdue : late.Due := hlate.1 (by decide +kernel)
  exact ⟨hfresh, hgated hfresh, hdue, hstamped hdue⟩

end SourceModel.Host
