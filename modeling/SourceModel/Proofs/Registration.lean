import SourceModel.SymbolTable
/-!
# What a parsed file leaves in a table

A pass over a file changes two fields of a symbol table. Its sum types go into
their registry one by one, where the first of a name stays, and the diagnostic
it ended with, if any, goes behind those already there.
-/

namespace SourceModel

namespace Registry

/-- Of a list of sum types, a registry takes the first of each name it does not
hold already. -/
theorem find?_foldl_putNew (types : List SumType) (r : Registry String SumType) (name : String) :
    (types.foldl (fun r s => r.putNew s.name s) r).find? name =
      (r.find? name).or (types.find? (·.name = name)) := by
  induction types generalizing r with
  | nil => simp
  | cons s types ih =>
    rw [List.foldl_cons, ih, find?_putNew, List.find?_cons]
    by_cases h : s.name = name <;> simp [h]

end Registry

namespace SymbolTable

/-- The diagnostic a pass over `file` ends with, if any. -/
def diagnosticsOf (file : Path) (parsed : Parsing.ParsedFile) : List Diagnostic :=
  parsed.failure.toList.map fun failure => ⟨failure.flaw.fault.message, file, failure.position⟩

theorem document_of_mem {file : Path} {parsed : Parsing.ParsedFile} {d : Diagnostic}
    (h : d ∈ diagnosticsOf file parsed) : d.document = file := by
  obtain ⟨failure, -, rfl⟩ := List.mem_map.1 h
  rfl

theorem foldl_register_sumType (types : List SumType) (t : SymbolTable) :
    types.foldl (fun t s => t.register (.sumType s)) t =
      { t with sumTypes := types.foldl (fun r s => r.putNew s.name s) t.sumTypes } := by
  induction types generalizing t with
  | nil => rfl
  | cons s types ih => rw [List.foldl_cons, ih]; rfl

/-- Only the sum types and the diagnostics of a table change. -/
theorem augment_eq (t : SymbolTable) (file : Path) (parsed : Parsing.ParsedFile) :
    t.augment file parsed =
      { t with
        sumTypes := parsed.declarations.foldl (fun r s => r.putNew s.name s) t.sumTypes
        diagnostics := t.diagnostics ++ diagnosticsOf file parsed } := by
  unfold augment diagnosticsOf
  rw [foldl_register_sumType]
  cases parsed.failure with
  | none => simp
  | some failure => rfl

theorem find?_augment (t : SymbolTable) (file : Path) (parsed : Parsing.ParsedFile) (name : String) :
    (t.augment file parsed).sumTypes.find? name =
      (t.sumTypes.find? name).or (parsed.declarations.find? (·.name = name)) := by
  rw [augment_eq]
  exact Registry.find?_foldl_putNew _ _ _

end SymbolTable

end SourceModel
