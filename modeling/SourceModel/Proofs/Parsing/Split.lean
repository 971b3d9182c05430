import SourceModel.Proofs.Parsing.Reader
import SourceModel.Proofs.Registration
import Mathlib.Data.List.Forall2
/-!
# A file is parsed into its declarations

Every token list splits in exactly one way into declarations and a rest that
starts with none. A pass over the file recognises those declarations, in that
order, succeeds exactly when nothing is left, and otherwise leaves one
diagnostic. `parse_split` says so for every file and every table it is parsed
into.
-/

namespace SourceModel.Grammar

open Parsing

/-- These tokens are a declaration, over when `rest` follows. -/
def Declares (w rest : List Token) : Prop :=
  ∃ d : DeclarationPhrase, d.tokens = w ∧ d.EndsBefore rest

/-- These tokens are a declaration of this sum type. -/
def Denotes (w : List Token) (type : SumType) : Prop :=
  ∃ d : DeclarationPhrase, d.tokens = w ∧ d.meaning = type

/-- A token list as declarations, each over when what comes after it follows,
and a rest, which is empty or starts with none. -/
inductive Split : List Token → List (List Token) → List Token → Prop
  | rest {ts : List Token} : (ts = [] ∨ ∀ w more, ts = w ++ more → ¬ Declares w more) → Split ts [] ts
  | declaration {w more : List Token} {ws : List (List Token)} {rest : List Token} :
      Declares w more → Split more ws rest → Split (w ++ more) (w :: ws) rest

/-! ## One declaration -/

/-- A declaration at the front is recognised, and the pass goes on behind it. -/
theorem parseTokens_phrase {d : DeclarationPhrase} {rest : List Token} (h : d.EndsBefore rest) :
    parseTokens (d.tokens ++ rest) = ⟨d.meaning :: (parseTokens rest).declarations, (parseTokens rest).failure⟩ := by
  have hfound := sumType_phrase h
  simp only [DeclarationPhrase.tokens, List.cons_append] at hfound ⊢
  rw [parseTokens, hfound]
  simp

/-- Where no declaration stands, the pass stops. -/
theorem parseTokens_stuck {ts : List Token} (hne : ts ≠ []) (h : ∀ w more, ts = w ++ more → ¬ Declares w more) :
    (parseTokens ts).declarations = [] ∧ (parseTokens ts).failure ≠ none := by
  cases ts with
  | nil => exact absurd rfl hne
  | cons t ts =>
    rw [parseTokens]
    split
    · rename_i hfound
      obtain ⟨d, rest, hts, hends⟩ := phrase_of_matched hfound
      exact absurd ⟨d, rfl, hends⟩ (h _ _ hts)
    · simp
    · simp

/-- Declarations at the front of the same tokens are the same. -/
theorem Declares.unique {w w' more more' : List Token} (h : Declares w more) (h' : Declares w' more')
    (heq : w ++ more = w' ++ more') : w = w' ∧ more = more' := by
  obtain ⟨d, rfl, hends⟩ := h
  obtain ⟨d', rfl, hends'⟩ := h'
  have hfound := sumType_phrase hends
  rw [heq, sumType_phrase hends', Attempt.matched.injEq] at hfound
  exact List.append_inj heq hfound.2.symm

/-- A declaration denotes one sum type. -/
theorem Denotes.unique {w : List Token} {s s' : SumType} (h : Denotes w s) (h' : Denotes w s') : s = s' := by
  obtain ⟨d, rfl, rfl⟩ := h
  obtain ⟨d', htokens, rfl⟩ := h'
  have hfound := sumType_phrase d.endsBefore_nil
  rw [← htokens, sumType_phrase d'.endsBefore_nil, Attempt.matched.injEq] at hfound
  exact hfound.1.symm

theorem Declares.ne_nil {w more : List Token} (h : Declares w more) : w ≠ [] := by
  obtain ⟨d, rfl, -⟩ := h
  exact d.tokens_ne_nil

/-! ## The whole file -/

theorem exists_split (ts : List Token) : ∃ ws rest, Split ts ws rest := by
  induction hn : ts.length using Nat.strongRecOn generalizing ts with
  | ind n ih =>
    by_cases h : ∃ w more, ts = w ++ more ∧ Declares w more
    · -- A declaration has its keyword at least, so what is left is shorter.
      obtain ⟨w, more, rfl, hw⟩ := h
      have hpos := List.length_pos_iff.2 hw.ne_nil
      rw [List.length_append] at hn
      obtain ⟨ws, rest, hsplit⟩ := ih more.length (by omega) more rfl
      exact ⟨w :: ws, rest, .declaration hw hsplit⟩
    · exact ⟨[], ts, .rest (.inr fun w more hts hw => h ⟨w, more, hts, hw⟩)⟩

theorem Split.unique {ts rest rest' : List Token} {ws ws' : List (List Token)} (h : Split ts ws rest)
    (h' : Split ts ws' rest') : ws' = ws ∧ rest' = rest := by
  induction h generalizing ws' rest' with
  | @rest ts hstop =>
    cases h' with
    | rest => exact ⟨rfl, rfl⟩
    | declaration hw _ =>
      rcases hstop with hnil | hstop
      · exact absurd (List.append_eq_nil_iff.1 hnil).1 hw.ne_nil
      · exact absurd hw (hstop _ _ rfl)
  | @declaration w more ws rest hw hsplit ih =>
    generalize hts : w ++ more = ts at h'
    cases h' with
    | rest hstop =>
      rcases hstop with rfl | hstop
      · exact absurd (List.append_eq_nil_iff.1 hts).1 hw.ne_nil
      · exact absurd hw (hstop _ _ hts.symm)
    | declaration hw' hsplit' =>
      -- Both start with the same declaration.
      obtain ⟨rfl, rfl⟩ := hw.unique hw' hts
      obtain ⟨rfl, rfl⟩ := ih hsplit'
      exact ⟨rfl, rfl⟩

/-- The pass recognises the declarations of the split, and stops early exactly
when it leaves a rest. -/
theorem Split.parse {ts rest : List Token} {ws : List (List Token)} (h : Split ts ws rest) :
    List.Forall₂ Denotes ws (parseTokens ts).declarations ∧ ((parseTokens ts).failure = none ↔ rest = []) := by
  induction h with
  | @rest ts hstop =>
    by_cases hnil : ts = []
    · subst hnil
      simp [parseTokens]
    · obtain ⟨hnone, hfail⟩ := parseTokens_stuck hnil (hstop.resolve_left hnil)
      simp [hnone, hfail, hnil]
  | declaration hw _ ih =>
    obtain ⟨d, rfl, hends⟩ := hw
    rw [parseTokens_phrase hends]
    exact ⟨.cons ⟨d, rfl, rfl⟩ ih.1, ih.2⟩

/-- Parsing is exact. There is one split of the tokens into declarations and a
rest, and one list of sum types those declarations denote. The pass succeeds
exactly when the rest is empty and counts the declarations of the split; the
table gains their sum types, the first of each name, and one diagnostic of the
file when there is a rest, and nothing else. -/
theorem parse_split (ts : List Token) (file : Path) (table : SymbolTable) :
    ∃ (ws : List (List Token)) (rest : List Token) (types : List SumType) (found : List Diagnostic),
      (∀ ws' rest', Split ts ws' rest' ↔ ws' = ws ∧ rest' = rest) ∧
      (∀ types', List.Forall₂ Denotes ws types' ↔ types' = types) ∧
      (parseTokens ts).outcome = (if rest = [] then .success else .failed) ∧
      (parseTokens ts).declarations.length = ws.length ∧
      found.length = (if rest = [] then 0 else 1) ∧ (∀ d ∈ found, d.document = file) ∧
      table.augment file (parseTokens ts) =
        { table with
          sumTypes := types.foldl (fun r s => r.putNew s.name s) table.sumTypes
          diagnostics := table.diagnostics ++ found } ∧
      ∀ name, (table.augment file (parseTokens ts)).sumTypes.find? name =
        (table.sumTypes.find? name).or (types.find? (·.name = name)) := by
  obtain ⟨ws, rest, hsplit⟩ := exists_split ts
  obtain ⟨htypes, hrest⟩ := hsplit.parse
  have hunique : Relator.RightUnique Denotes := fun _ _ _ h h' => h.unique h'
  refine ⟨ws, rest, (parseTokens ts).declarations, SymbolTable.diagnosticsOf file (parseTokens ts),
    fun ws' rest' => ⟨hsplit.unique, ?_⟩, fun types' => ⟨?_, ?_⟩, ?_, htypes.length_eq.symm, ?_,
    fun d hd => SymbolTable.document_of_mem hd, table.augment_eq file _, table.find?_augment file _⟩
  · rintro ⟨rfl, rfl⟩
    exact hsplit
  · exact fun h => List.right_unique_forall₂' hunique h htypes
  · rintro rfl
    exact htypes
  · rw [ParsedFile.outcome]
    cases hfail : (parseTokens ts).failure with
    | none => simp [hrest.1 hfail]
    | some failure => simp [mt hrest.2 (by simp [hfail])]
  · rw [SymbolTable.diagnosticsOf]
    cases hfail : (parseTokens ts).failure with
    | none => simp [hrest.1 hfail]
    | some failure => simp [mt hrest.2 (by simp [hfail])]

end SourceModel.Grammar
