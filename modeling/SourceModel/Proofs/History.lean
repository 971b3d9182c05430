import SourceModel.SymbolTable
import Mathlib.Data.List.Induction
/-!
# A table follows from its history

Ten calls fill a symbol table, in any order and as often as the caller likes.
`table_of_history` reads each part of the table off the list of those calls: a
function has the overloads of all calls for its name, a key of one of the four
first-wins registries has the value of the first call for it, lists hold what
was appended, and a file has the last record of its path.

The four registries differ only in the declarations they pick, so what they
hold is proved once, for any registry that is `FirstWins`.
-/

namespace SourceModel

/-- A call that registers something. Where there is a key, it may differ from
the declaration's own name. -/
inductive Registration where
  /-- A declaration of any kind, under its own name. -/
  | declaration (d : Declaration)
  | function (f : OverloadSet)
  | structureType (key : String) (s : Structure)
  | sumType (key : String) (s : SumType)
  | strongAlias (key : String) (a : Alias)
  | weakAlias (key : String) (a : Alias)
  | globalVariable (v : TypedName)
  | file (path : Path) (record : FileRecord)
  | diagnostic (d : Diagnostic)
  | fileError (e : FileError)

/-! ## Kinds of declarations -/

namespace Declaration

def function? : Declaration → Option OverloadSet
  | .function f => some f
  | _ => none

def structure? : Declaration → Option Structure
  | .structureType s => some s
  | _ => none

def sumType? : Declaration → Option SumType
  | .sumType s => some s
  | _ => none

def strongAlias? : Declaration → Option Alias
  | .strongAlias a => some a
  | _ => none

def weakAlias? : Declaration → Option Alias
  | .weakAlias a => some a
  | _ => none

def globalVariable? : Declaration → Option TypedName
  | .globalVariable v => some v
  | _ => none

/-- Whether a declaration keeps a later one from its key. Both are then of one
kind; functions and variables keep nobody away. -/
def excludes : Declaration → Declaration → Bool
  | .structureType _, .structureType _ => true
  | .sumType _, .sumType _ => true
  | .strongAlias _, .strongAlias _ => true
  | .weakAlias _, .weakAlias _ => true
  | _, _ => false

end Declaration

/-! ## Histories -/

namespace Registration

/-- What a call does to a table. -/
def apply (t : SymbolTable) : Registration → SymbolTable
  | .declaration d => t.register d
  | .function f => t.registerFunction f
  | .structureType key s => t.registerStructure key s
  | .sumType key s => t.registerSumType key s
  | .strongAlias key a => t.registerStrongAlias key a
  | .weakAlias key a => t.registerWeakAlias key a
  | .globalVariable v => t.registerGlobal v
  | .file path record => t.registerFile path record
  | .diagnostic d => t.addDiagnostic d
  | .fileError e => t.addFileError e

/-- The declaration a call brings, with the key it is to be known by. -/
def declared? : Registration → Option (String × Declaration)
  | .declaration d => some (d.name, d)
  | .function f => some (f.name, .function f)
  | .structureType key s => some (key, .structureType s)
  | .sumType key s => some (key, .sumType s)
  | .strongAlias key a => some (key, .strongAlias a)
  | .weakAlias key a => some (key, .weakAlias a)
  | .globalVariable v => some (v.name, .globalVariable v)
  | _ => none

/-- The declaration of a kind that a call brings under a key. -/
def under? {α : Type} (pick : Declaration → Option α) (key : String) (r : Registration) : Option α :=
  r.declared?.bind fun (k, d) => if k = key then pick d else none

def global? (r : Registration) : Option TypedName :=
  r.declared?.bind fun (_, d) => d.globalVariable?

def diagnostic? : Registration → Option Diagnostic
  | .diagnostic d => some d
  | _ => none

def fileError? : Registration → Option FileError
  | .fileError e => some e
  | _ => none

/-- The record a call brings for a path, however it is spelled. -/
def record? (path : Path) : Registration → Option FileRecord
  | .file p record => if p.components = path.components then some record else none
  | _ => none

end Registration

/-- The table after some calls, from an empty one. -/
def SymbolTable.ofHistory (history : List Registration) : SymbolTable :=
  history.foldl Registration.apply .empty

namespace Registration

theorem apply_declared {r : Registration} {key : String} {d : Declaration} (h : r.declared? = some (key, d))
    (t : SymbolTable) : r.apply t = t.registerAs key d := by
  cases r <;> cases h <;> rfl

/-- A call that brings no declaration leaves the registries of declarations
alone. -/
theorem apply_undeclared {r : Registration} (h : r.declared? = none) (t : SymbolTable) :
    (r.apply t).functions = t.functions ∧ (r.apply t).structures = t.structures ∧
      (r.apply t).sumTypes = t.sumTypes ∧ (r.apply t).strongAliases = t.strongAliases ∧
      (r.apply t).weakAliases = t.weakAliases := by
  cases r with
  | file path record => exact ⟨rfl, rfl, rfl, rfl, rfl⟩
  | diagnostic d => exact ⟨rfl, rfl, rfl, rfl, rfl⟩
  | fileError e => exact ⟨rfl, rfl, rfl, rfl, rfl⟩
  | _ => cases h

theorem ofHistory_append (history : List Registration) (r : Registration) :
    SymbolTable.ofHistory (history ++ [r]) = r.apply (.ofHistory history) :=
  List.foldl_append

/-! ## Registries where the first call wins -/

/-- A registry of a table takes the declarations of one kind, each under its
key unless that is taken, and nothing else. -/
structure FirstWins {α : Type} (registry : SymbolTable → Registry String α) (pick : Declaration → Option α) :
    Prop where
  empty : registry .empty = .empty
  declared : ∀ t key d, registry (t.registerAs key d) = (pick d).elim (registry t) ((registry t).putNew key)
  other : ∀ t (r : Registration), r.declared? = none → registry (r.apply t) = registry t

theorem FirstWins.find?_apply {α : Type} {registry : SymbolTable → Registry String α}
    {pick : Declaration → Option α} (h : FirstWins registry pick) (t : SymbolTable) (r : Registration)
    (key : String) :
    (registry (r.apply t)).find? key = ((registry t).find? key).or (r.under? pick key) := by
  unfold under?
  cases hr : r.declared? with
  | none => rw [h.other t r hr, Option.bind_none, Option.or_none]
  | some entry =>
    obtain ⟨k, d⟩ := entry
    rw [apply_declared hr, h.declared, Option.bind_some]
    cases hpick : pick d with
    | none => simp [hpick]
    | some a =>
      rw [Option.elim_some, Registry.find?_putNew]
      by_cases hk : k = key <;> simp [hk, hpick]

theorem FirstWins.find?_ofHistory {α : Type} {registry : SymbolTable → Registry String α}
    {pick : Declaration → Option α} (h : FirstWins registry pick) (history : List Registration) (key : String) :
    (registry (.ofHistory history)).find? key = history.findSome? (under? pick key) := by
  induction history using List.reverseRecOn with
  | nil => rw [SymbolTable.ofHistory, List.foldl_nil, h.empty]; rfl
  | append_singleton history r ih =>
    rw [ofHistory_append, h.find?_apply, ih, List.findSome?_append]
    cases hr : r.under? pick key <;> simp [hr]

theorem firstWins_structures : FirstWins (·.structures) Declaration.structure? where
  empty := rfl
  declared t key d := by cases d <;> rfl
  other t r h := (apply_undeclared h t).2.1

theorem firstWins_sumTypes : FirstWins (·.sumTypes) Declaration.sumType? where
  empty := rfl
  declared t key d := by cases d <;> rfl
  other t r h := (apply_undeclared h t).2.2.1

theorem firstWins_strongAliases : FirstWins (·.strongAliases) Declaration.strongAlias? where
  empty := rfl
  declared t key d := by cases d <;> rfl
  other t r h := (apply_undeclared h t).2.2.2.1

theorem firstWins_weakAliases : FirstWins (·.weakAliases) Declaration.weakAlias? where
  empty := rfl
  declared t key d := by cases d <;> rfl
  other t r h := (apply_undeclared h t).2.2.2.2

/-- A key is taken once a call brought a declaration of the kind under it. -/
theorem FirstWins.contains_ofHistory {α : Type} {registry : SymbolTable → Registry String α}
    {pick : Declaration → Option α} (h : FirstWins registry pick) (history : List Registration) (key : String) :
    (registry (.ofHistory history)).contains key = true ↔
      ∃ r ∈ history, ∃ d, r.declared? = some (key, d) ∧ (pick d).isSome = true := by
  rw [Registry.contains, h.find?_ofHistory, List.isSome_findSome?, List.any_eq_true]
  refine exists_congr fun r => and_congr_right fun _ => ?_
  unfold under?
  cases r.declared? with
  | none => simp
  | some entry =>
    obtain ⟨k, d⟩ := entry
    by_cases hk : k = key <;> simp [hk]

/-! ## Functions -/

/-- The functions that calls bring under a name, in call order. -/
def functionsUnder (history : List Registration) (name : String) : List OverloadSet :=
  history.filterMap (under? Declaration.function? name)

/-- A function gathers overloads, and every call for its name makes it known. -/
theorem functions_apply (t : SymbolTable) (r : Registration) (name : String) :
    (r.apply t).functions.find? name =
      (r.under? Declaration.function? name).elim (t.functions.find? name) fun f =>
        some ⟨name, (t.functions.find? name).elim [] (·.overloads) ++ f.overloads⟩ := by
  unfold under?
  cases hr : r.declared? with
  | none => rw [(apply_undeclared hr t).1]; rfl
  | some entry =>
    obtain ⟨k, d⟩ := entry
    rw [apply_declared hr, Option.bind_some]
    cases d with
    | function f =>
      -- A function is registered under its own name by every call.
      obtain rfl : k = f.name := by cases r <;> cases hr <;> rfl
      rw [SymbolTable.registerAs, SymbolTable.registerFunction, Registry.find?_put]
      by_cases hk : f.name = name
      · subst hk
        simp [Declaration.function?]
      · simp [hk]
    | _ =>
      change t.functions.find? name = _
      simp [Declaration.function?]

theorem functions_ofHistory (history : List Registration) (name : String) :
    (SymbolTable.ofHistory history).functions.find? name =
      if functionsUnder history name = [] then none
      else some ⟨name, (functionsUnder history name).flatMap (·.overloads)⟩ := by
  induction history using List.reverseRecOn with
  | nil => rfl
  | append_singleton history r ih =>
    have happend : functionsUnder (history ++ [r]) name =
        functionsUnder history name ++ (r.under? Declaration.function? name).toList := by
      cases hr : r.under? Declaration.function? name <;> simp [functionsUnder, hr]
    rw [ofHistory_append, functions_apply, ih, happend]
    cases r.under? Declaration.function? name with
    | none => simp
    | some f => by_cases hnone : functionsUnder history name = [] <;> simp [hnone]

/-! ## Lists and files -/

/-- A list that every call may append to holds what was appended. -/
theorem appended_ofHistory {α : Type} (view : SymbolTable → List α) (pick : Registration → Option α)
    (hempty : view .empty = []) (happly : ∀ t r, view (r.apply t) = view t ++ (pick r).toList)
    (history : List Registration) : view (.ofHistory history) = history.filterMap pick := by
  induction history using List.reverseRecOn with
  | nil => exact hempty
  | append_singleton history r ih =>
    rw [ofHistory_append, happly, ih, List.filterMap_append]
    cases hr : pick r <;> simp [hr]

theorem globals_apply (t : SymbolTable) (r : Registration) :
    (r.apply t).globals = t.globals ++ r.global?.toList := by
  cases r with
  | declaration d =>
    cases d with
    | globalVariable v => rfl
    | _ => exact (List.append_nil _).symm
  | globalVariable v => rfl
  | _ => exact (List.append_nil _).symm

theorem diagnostics_apply (t : SymbolTable) (r : Registration) :
    (r.apply t).diagnostics = t.diagnostics ++ r.diagnostic?.toList := by
  cases r with
  | declaration d => cases d <;> exact (List.append_nil _).symm
  | diagnostic d => rfl
  | _ => exact (List.append_nil _).symm

theorem fileErrors_apply (t : SymbolTable) (r : Registration) :
    (r.apply t).fileErrors = t.fileErrors ++ r.fileError?.toList := by
  cases r with
  | declaration d => cases d <;> exact (List.append_nil _).symm
  | fileError e => rfl
  | _ => exact (List.append_nil _).symm

theorem fileRecord?_apply (t : SymbolTable) (r : Registration) (path : Path) :
    (r.apply t).fileRecord? path = (r.record? path).or (t.fileRecord? path) := by
  cases r with
  | declaration d => cases d <;> rfl
  | file p record =>
    rw [apply, SymbolTable.fileRecord?, SymbolTable.registerFile, Registry.find?_put, record?]
    by_cases hp : p.components = path.components <;> simp [hp, SymbolTable.fileRecord?]
  | _ => rfl

theorem fileRecord?_ofHistory (history : List Registration) (path : Path) :
    (SymbolTable.ofHistory history).fileRecord? path = history.reverse.findSome? (record? path) := by
  induction history using List.reverseRecOn with
  | nil => rfl
  | append_singleton history r ih =>
    rw [ofHistory_append, fileRecord?_apply, ih, List.reverse_append]
    cases hr : r.record? path <;> simp [hr]

/-! ## Answers -/

/-- What is not accepted changes nothing. -/
theorem registerAs_of_not_accepts {t : SymbolTable} {key : String} {d : Declaration}
    (h : t.acceptsAs key d = false) : t.registerAs key d = t := by
  cases d <;> simp_all [SymbolTable.acceptsAs, SymbolTable.registerAs, SymbolTable.registerStructure,
    SymbolTable.registerSumType, SymbolTable.registerStrongAlias, SymbolTable.registerWeakAlias, Registry.putNew]

/-- A declaration is accepted unless an earlier one keeps it from its key. -/
theorem acceptsAs_ofHistory (history : List Registration) (key : String) (d : Declaration) :
    (SymbolTable.ofHistory history).acceptsAs key d = true ↔
      ∀ r ∈ history, ∀ earlier, r.declared? = some (key, earlier) → earlier.excludes d = false := by
  have hfree : ∀ {α : Type} {registry : SymbolTable → Registry String α} {pick : Declaration → Option α},
      FirstWins registry pick → (∀ earlier, earlier.excludes d = (pick earlier).isSome) →
      ((!(registry (.ofHistory history)).contains key) = true ↔
        ∀ r ∈ history, ∀ earlier, r.declared? = some (key, earlier) → earlier.excludes d = false) := by
    intro α registry pick hfirst hexcludes
    rw [Bool.not_eq_true', ← Bool.not_eq_true, hfirst.contains_ofHistory]
    simp [hexcludes]
  cases d with
  | function f => simp [SymbolTable.acceptsAs, Declaration.excludes]
  | structureType s => exact hfree firstWins_structures fun earlier => by cases earlier <;> rfl
  | sumType s => exact hfree firstWins_sumTypes fun earlier => by cases earlier <;> rfl
  | strongAlias a => exact hfree firstWins_strongAliases fun earlier => by cases earlier <;> rfl
  | weakAlias a => exact hfree firstWins_weakAliases fun earlier => by cases earlier <;> rfl
  | globalVariable v => simp [SymbolTable.acceptsAs, Declaration.excludes]

/-- After any calls on an empty table: a function is known when some call was
for its name, with the overloads of all of them in call order; each first-wins
registry holds under a key what the first call for that registry and key
brought; variables, diagnostics and file errors are those of all calls, in call
order; a path has the last record of its components. A declaration that comes
next is accepted unless one of its kind has the key, and if it is not, nothing
changes. -/
theorem table_of_history (history : List Registration) :
    let t := SymbolTable.ofHistory history
    (∀ name, t.functions.find? name =
      if functionsUnder history name = [] then none
      else some ⟨name, (functionsUnder history name).flatMap (·.overloads)⟩) ∧
    (∀ key, t.structures.find? key = history.findSome? (under? Declaration.structure? key)) ∧
    (∀ key, t.sumTypes.find? key = history.findSome? (under? Declaration.sumType? key)) ∧
    (∀ key, t.strongAliases.find? key = history.findSome? (under? Declaration.strongAlias? key)) ∧
    (∀ key, t.weakAliases.find? key = history.findSome? (under? Declaration.weakAlias? key)) ∧
    t.globals = history.filterMap global? ∧
    t.diagnostics = history.filterMap diagnostic? ∧
    t.fileErrors = history.filterMap fileError? ∧
    (∀ path, t.fileRecord? path = history.reverse.findSome? (record? path)) ∧
    ∀ key d,
      (t.acceptsAs key d = true ↔
        ∀ r ∈ history, ∀ earlier, r.declared? = some (key, earlier) → earlier.excludes d = false) ∧
      (t.acceptsAs key d = false → t.registerAs key d = t) := by
  refine ⟨functions_ofHistory history, firstWins_structures.find?_ofHistory history,
    firstWins_sumTypes.find?_ofHistory history, firstWins_strongAliases.find?_ofHistory history,
    firstWins_weakAliases.find?_ofHistory history, ?_, ?_, ?_, fileRecord?_ofHistory history, ?_⟩
  · exact appended_ofHistory (·.globals) global? rfl globals_apply history
  · exact appended_ofHistory (·.diagnostics) diagnostic? rfl diagnostics_apply history
  · exact appended_ofHistory (·.fileErrors) fileError? rfl fileErrors_apply history
  · exact fun key d => ⟨acceptsAs_ofHistory history key d, registerAs_of_not_accepts⟩

end Registration

end SourceModel
