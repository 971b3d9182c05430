import SourceModel.Proofs.History
import SourceModel.Proofs.Registration
import SourceModel.Proofs.Registry
import Mathlib.Data.List.Count
import Mathlib.Data.String.Basic
/-!
# Tables that can be reached

A table is filled by calls and by passes over files. A pass leaves what a few
calls would have left, so a table that was reached by both has a history of
calls alone, and whatever holds after any calls holds of it.

In every such table the functions stand in the order of their names, each under
its own, and `queries_of_steps` follows: the two list queries agree with the
predicates, name by name.
-/

namespace SourceModel

/-- Something that happens to a table. -/
inductive TableStep where
  | call (r : Registration)
  /-- A pass over the tokens of a file. -/
  | parse (file : Path) (tokens : List Token)

namespace TableStep

def apply (t : SymbolTable) : TableStep → SymbolTable
  | .call r => r.apply t
  | .parse file tokens => t.augment file (Parsing.parseTokens tokens)

/-- The calls a step amounts to: those of a pass register the sum types it
recognised, and then the diagnostic it ended with. -/
def calls : TableStep → List Registration
  | .call r => [r]
  | .parse file tokens =>
    let parsed := Parsing.parseTokens tokens
    parsed.declarations.map (fun s => .declaration (.sumType s)) ++
      (SymbolTable.diagnosticsOf file parsed).map .diagnostic

theorem foldl_calls (step : TableStep) (t : SymbolTable) : step.calls.foldl Registration.apply t = step.apply t := by
  cases step with
  | call r => rfl
  | parse file tokens =>
    rw [calls, apply, List.foldl_append, List.foldl_map, List.foldl_map, SymbolTable.augment_eq]
    change (SymbolTable.diagnosticsOf file _).foldl SymbolTable.addDiagnostic
      ((Parsing.parseTokens tokens).declarations.foldl (fun t s => t.register (.sumType s)) t) = _
    rw [SymbolTable.foldl_register_sumType]
    unfold SymbolTable.diagnosticsOf
    cases (Parsing.parseTokens tokens).failure with
    | none => simp
    | some failure => rfl

end TableStep

namespace SymbolTable

/-- The table after some steps, from an empty one. -/
def ofSteps (steps : List TableStep) : SymbolTable :=
  steps.foldl TableStep.apply .empty

/-- All calls that the steps amount to. -/
def historyOf (steps : List TableStep) : List Registration :=
  steps.flatMap TableStep.calls

/-- What is reached by calls and passes is reached by calls. -/
theorem ofSteps_eq (steps : List TableStep) : ofSteps steps = ofHistory (historyOf steps) := by
  rw [ofHistory, historyOf, List.foldl_flatMap, ofSteps]
  simp only [TableStep.foldl_calls]

/-- The steps bring this declaration under this name. -/
def Brought (steps : List TableStep) (name : String) (d : Declaration) : Prop :=
  ∃ r ∈ historyOf steps, r.declared? = some (name, d)

/-! ## Types -/

theorem isType_iff (t : SymbolTable) (name : String) :
    t.isType name = true ↔ name ∈ t.sumTypes.keys ∨ name ∈ t.strongAliases.keys ∨ name ∈ t.weakAliases.keys := by
  rw [isType, Bool.or_eq_true, Bool.or_eq_true, Registry.mem_keys, Registry.mem_keys, Registry.mem_keys, or_assoc]

theorem mem_typeNames (t : SymbolTable) (name : String) : name ∈ t.typeNames ↔ t.isType name = true := by
  rw [isType_iff, typeNames, Registry.mem_sortedKeys, List.mem_append, List.mem_append, or_assoc]

/-- A name is a type's once a sum type or an alias came under it. -/
theorem isType_ofHistory (history : List Registration) (name : String) :
    (ofHistory history).isType name = true ↔
      ∃ r ∈ history, ∃ d, r.declared? = some (name, d) ∧
        (d.sumType?.isSome ∨ d.strongAlias?.isSome ∨ d.weakAlias?.isSome) := by
  rw [isType, Bool.or_eq_true, Bool.or_eq_true, Registration.firstWins_sumTypes.contains_ofHistory,
    Registration.firstWins_strongAliases.contains_ofHistory, Registration.firstWins_weakAliases.contains_ofHistory]
  constructor
  · rintro ((⟨r, hr, d, hd, hkind⟩ | ⟨r, hr, d, hd, hkind⟩) | ⟨r, hr, d, hd, hkind⟩)
    · exact ⟨r, hr, d, hd, .inl hkind⟩
    · exact ⟨r, hr, d, hd, .inr (.inl hkind)⟩
    · exact ⟨r, hr, d, hd, .inr (.inr hkind)⟩
  · rintro ⟨r, hr, d, hd, hkind | hkind | hkind⟩
    · exact .inl (.inl ⟨r, hr, d, hd, hkind⟩)
    · exact .inl (.inr ⟨r, hr, d, hd, hkind⟩)
    · exact .inr ⟨r, hr, d, hd, hkind⟩

/-! ## Functions -/

theorem ordered_functions_apply {t : SymbolTable} (h : t.functions.Ordered) (r : Registration) :
    (r.apply t).functions.Ordered := by
  cases hr : r.declared? with
  | none =>
    rw [(Registration.apply_undeclared hr t).1]
    exact h
  | some entry =>
    obtain ⟨key, d⟩ := entry
    rw [Registration.apply_declared hr]
    cases d with
    | function f => exact h.put _ _
    | _ => exact h

theorem ordered_functions (history : List Registration) : (ofHistory history).functions.Ordered := by
  induction history using List.reverseRecOn with
  | nil => exact Registry.ordered_empty
  | append_singleton history r ih =>
    rw [Registration.ofHistory_append]
    exact ordered_functions_apply ih r

/-- A function stands under its own name. -/
theorem name_of_mem_functions {history : List Registration} {key : String} {f : OverloadSet}
    (h : (key, f) ∈ (ofHistory history).functions.entries) : f.name = key := by
  have hfind := (ordered_functions history).find?_eq_some.2 h
  rw [Registration.functions_ofHistory] at hfind
  split at hfind
  · cases hfind
  · cases hfind
    rfl

theorem map_name_values (history : List Registration) :
    (ofHistory history).functions.values.map (·.name) = (ofHistory history).functions.keys := by
  rw [Registry.values, Registry.keys, List.map_map]
  exact List.map_congr_left fun e he => name_of_mem_functions he

theorem values_pairwise (history : List Registration) :
    (ofHistory history).functions.values.Pairwise fun f g => f.name < g.name := by
  rw [← List.pairwise_map, map_name_values]
  exact List.pairwise_map.2 (ordered_functions history)

/-- Sorting leaves the functions where they are stored: their keys ascend, and
are their names. -/
theorem functionList_eq (history : List Registration) :
    (ofHistory history).functionList = (ofHistory history).functions.values :=
  List.mergeSort_of_pairwise ((values_pairwise history).imp fun hlt => decide_eq_true (le_of_lt hlt))

theorem countP_functionList (history : List Registration) (name : String) :
    (ofHistory history).functionList.countP (·.name = name) = if (ofHistory history).isFunction name then 1 else 0 := by
  have hcount : (ofHistory history).functionList.countP (·.name = name) =
      (ofHistory history).functions.keys.count name := by
    rw [functionList_eq, ← map_name_values, List.count, List.countP_map]
    exact List.countP_congr fun f _ => by simp
  rw [hcount, (ordered_functions history).nodup_keys.count]
  simp only [Registry.mem_keys]
  rfl

theorem find?_of_mem_functionList {history : List Registration} {f : OverloadSet}
    (h : f ∈ (ofHistory history).functionList) : (ofHistory history).functions.find? f.name = some f := by
  rw [functionList_eq] at h
  obtain ⟨⟨key, f⟩, he, rfl⟩ := List.mem_map.1 h
  rw [name_of_mem_functions he]
  exact (ordered_functions history).find?_eq_some.2 he

/-- List queries agree with the predicates in every table that calls and passes
can make. Type names ascend strictly and are the names that answer as types:
the keys of sum types and aliases, and never those under which only structures
and functions came. Functions ascend strictly by name, with one entry for every
name that answers as a function, and each entry is what its name is answered
with. -/
theorem queries_of_steps (steps : List TableStep) :
    let t := ofSteps steps
    t.typeNames.Pairwise (· < ·) ∧
    (∀ name, name ∈ t.typeNames ↔ t.isType name = true) ∧
    (∀ name, t.isType name = true ↔
      name ∈ t.sumTypes.keys ∨ name ∈ t.strongAliases.keys ∨ name ∈ t.weakAliases.keys) ∧
    (∀ name, (∀ d, Brought steps name d → (∃ s, d = .structureType s) ∨ ∃ f, d = .function f) →
      name ∉ t.typeNames) ∧
    t.functionList.Pairwise (fun f g => f.name < g.name) ∧
    (∀ name, t.functionList.countP (·.name = name) = if t.isFunction name then 1 else 0) ∧
    ∀ f ∈ t.functionList, t.functions.find? f.name = some f := by
  intro t
  have ht : t = ofHistory (historyOf steps) := ofSteps_eq steps
  refine ⟨Registry.pairwise_sortedKeys _, t.mem_typeNames, t.isType_iff, fun name honly hmem => ?_, ?_⟩
  · rw [mem_typeNames, ht, isType_ofHistory] at hmem
    obtain ⟨r, hr, d, hd, hkind⟩ := hmem
    rcases honly d ⟨r, hr, hd⟩ with ⟨s, rfl⟩ | ⟨f, rfl⟩ <;>
      simp [Declaration.sumType?, Declaration.strongAlias?, Declaration.weakAlias?] at hkind
  · rw [ht]
    refine ⟨?_, countP_functionList _, fun f hf => find?_of_mem_functionList hf⟩
    rw [functionList_eq]
    exact values_pairwise _

end SymbolTable

end SourceModel
