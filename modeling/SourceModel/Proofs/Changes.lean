import SourceModel.Proofs.Reachable
/-!
# Reported changes

Registering a declaration reports whether the table changed. Tables are compared
as tables are: by their registries and lists, with paths compared by components.
In every table that can be reached, `register_reports` says that the report is
right but for one case, a function that brings no overloads to a name that is
already known: it is reported, and nothing changes.
-/

namespace SourceModel

/-! ## Equality of tables -/

instance : ReflBEq Path where
  rfl := decide_eq_true rfl

deriving instance ReflBEq for FileRecord, Diagnostic, FileError

deriving instance ReflBEq, LawfulBEq for Registry

deriving instance ReflBEq for SymbolTable

namespace SymbolTable

/-- Tables that share files, diagnostics and file errors are equal when they compare
equal: only with paths are two values taken for one. -/
theorem eq_of_beq_table {t t' : SymbolTable} (hfiles : t.files = t'.files)
    (hdiagnostics : t.diagnostics = t'.diagnostics) (hfileErrors : t.fileErrors = t'.fileErrors)
    (h : (t == t') = true) : t = t' := by
  obtain ⟨files, globals, functions, structures, sumTypes, strongAliases, weakAliases, diagnostics, fileErrors⟩ := t
  obtain ⟨files', globals', functions', structures', sumTypes', strongAliases', weakAliases', diagnostics',
    fileErrors'⟩ := t'
  change instBEqSymbolTable.beq _ _ = true at h
  simp only [instBEqSymbolTable.beq, Bool.and_eq_true] at h
  obtain ⟨-, hglobals, hfunctions, hstructures, hsumTypes, hstrong, hweak, -, -⟩ := h
  cases hfiles
  cases hdiagnostics
  cases hfileErrors
  cases eq_of_beq hglobals
  cases eq_of_beq hfunctions
  cases eq_of_beq hstructures
  cases eq_of_beq hsumTypes
  cases eq_of_beq hstrong
  cases eq_of_beq hweak
  rfl

/-- A declaration touches neither files nor what went wrong with them. -/
theorem register_beq_iff (t : SymbolTable) (d : Declaration) : (t.register d == t) = true ↔ t.register d = t := by
  constructor
  · exact eq_of_beq_table (by cases d <;> rfl) (by cases d <;> rfl) (by cases d <;> rfl)
  · intro h
    rw [h]
    exact BEq.rfl

end SymbolTable

/-! ## What storing changes -/

namespace Registry

variable {κ α : Type} [DecidableEq κ] [LT κ] [DecidableLT κ]

theorem putNew_eq_self_iff (r : Registry κ α) (key : κ) (value : α) :
    r.putNew key value = r ↔ r.contains key = true := by
  constructor
  · intro h
    have hfind := find?_putNew r key value key
    rw [h, if_pos rfl] at hfind
    rw [contains, hfind, Option.isSome_or, Option.isSome_some, Bool.or_true]
  · intro h
    rw [putNew, if_pos h]

theorem Ordered.put_eq_self_iff [Std.Asymm ((· < ·) : κ → κ → Prop)] [Std.Trichotomous ((· < ·) : κ → κ → Prop)]
    [IsTrans κ (· < ·)] {r : Registry κ α} (hordered : r.Ordered) (key : κ) (value : α) :
    r.put key value = r ↔ r.find? key = some value := by
  constructor
  · intro h
    have hfind := find?_put r key value key
    rwa [h, if_pos rfl] at hfind
  · intro h
    refine (hordered.put key value).ext hordered fun k => ?_
    rw [find?_put]
    split
    next hk => rw [← hk, h]
    next => rfl

end Registry

/-- A table that a declaration leaves alone has its key in the registry of its
kind, so the declaration is not accepted. -/
theorem Registration.FirstWins.not_accepts {α : Type} {registry : SymbolTable → Registry String α}
    {pick : Declaration → Option α} (hfirst : FirstWins registry pick) {t : SymbolTable} {d : Declaration} {a : α}
    (hpick : pick d = some a) (haccepts : t.accepts d = !(registry t).contains d.name) (h : t.register d = t) :
    t.accepts d = false := by
  have hdeclared := hfirst.declared t d.name d
  rw [hpick, Option.elim_some] at hdeclared
  have hkey : (registry t).contains d.name = true := by
    rw [← Registry.putNew_eq_self_iff _ _ a, ← hdeclared]
    exact congrArg registry h
  rw [haccepts, hkey, Bool.not_true]

namespace SymbolTable

/-- The declaration is a function that brings no overloads to a name that is known. -/
def BringsNothing (t : SymbolTable) (d : Declaration) : Prop :=
  ∃ f, d = .function f ∧ f.overloads = [] ∧ t.isFunction f.name = true

theorem registerFunction_eq_self_iff (history : List Registration) (f : OverloadSet) :
    (ofHistory history).registerFunction f = ofHistory history ↔
      f.overloads = [] ∧ (ofHistory history).isFunction f.name = true := by
  have hordered := ordered_functions history
  have hput : (ofHistory history).registerFunction f = ofHistory history ↔
      (ofHistory history).functions.find? f.name = some ⟨f.name,
        ((ofHistory history).functions.find? f.name).elim [] (·.overloads) ++ f.overloads⟩ := by
    rw [← hordered.put_eq_self_iff]
    exact ⟨congrArg SymbolTable.functions, fun h => by rw [registerFunction, h]⟩
  rw [hput, isFunction, Registry.contains]
  cases hfind : (ofHistory history).functions.find? f.name with
  | none => simp
  | some known =>
    -- A function is known by its own name, so only the overloads could differ.
    have hname : known.name = f.name := name_of_mem_functions (hordered.find?_eq_some.1 hfind)
    obtain ⟨name, overloads⟩ := known
    cases hname
    simp

theorem register_eq_self_iff (history : List Registration) (d : Declaration) :
    (ofHistory history).register d = ofHistory history ↔
      (ofHistory history).accepts d = false ∨ (ofHistory history).BringsNothing d := by
  constructor
  · intro h
    cases d with
    | function f => exact .inr ⟨f, rfl, (registerFunction_eq_self_iff history f).1 h⟩
    | structureType s => exact .inl (Registration.firstWins_structures.not_accepts rfl rfl h)
    | sumType s => exact .inl (Registration.firstWins_sumTypes.not_accepts rfl rfl h)
    | strongAlias a => exact .inl (Registration.firstWins_strongAliases.not_accepts rfl rfl h)
    | weakAlias a => exact .inl (Registration.firstWins_weakAliases.not_accepts rfl rfl h)
    | globalVariable v =>
      -- One more variable is a longer list.
      have hglobals := congrArg (fun t => t.globals.length) h
      simp [register, registerAs, registerGlobal] at hglobals
  · rintro (h | ⟨f, rfl, h⟩)
    · exact Registration.registerAs_of_not_accepts h
    · exact (registerFunction_eq_self_iff history f).2 h

/-- In every table that calls and passes can make, and for every declaration: it is
reported as a change when the table compares unequal afterwards, or when it is a
function that brings no overloads to a name that is known. In that case the table
compares equal. -/
theorem register_reports (steps : List TableStep) (d : Declaration) :
    let t := ofSteps steps
    (t.accepts d = true ↔ (t.register d == t) = false ∨ t.BringsNothing d) ∧
      ¬ ((t.register d == t) = false ∧ t.BringsNothing d) := by
  intro t
  have hsame : (t.register d == t) = true ↔ t.accepts d = false ∨ t.BringsNothing d := by
    rw [register_beq_iff, show t = ofHistory (historyOf steps) from ofSteps_eq steps, register_eq_self_iff]
  have hfunction : t.BringsNothing d → t.accepts d = true := by
    rintro ⟨f, rfl, -⟩
    rfl
  rw [← Bool.not_eq_true (t.register d == t), hsame, not_or, Bool.not_eq_false]
  constructor
  · constructor
    · intro haccepts
      exact (em (t.BringsNothing d)).elim .inr fun hbrings => .inl ⟨haccepts, hbrings⟩
    · rintro (⟨haccepts, -⟩ | hbrings)
      · exact haccepts
      · exact hfunction hbrings
  · rintro ⟨⟨-, hnot⟩, hbrings⟩
    exact hnot hbrings

/-- A function without overloads that comes twice is reported twice, and the second
time nothing changes. -/
theorem emptyFunction_reported :
    let f : Declaration := .function ⟨"f", []⟩
    let t := ofSteps [.call (.declaration f)]
    t.accepts f = true ∧ (t.register f == t) = true := by
  decide

end SymbolTable

end SourceModel
