import SourceModel.Project.Survey
import SourceModel.Proofs.Lexical.LineBreak
import SourceModel.Proofs.Parsing.Viable
/-!
# Files joined at a line break

A text that parses to its end can be followed by a line break and another text:
the pass over both finds the declarations of the first, then what a pass over
the second finds. A text that parses ends with a name or a closing bracket, so
it leaves no literal and no comment open, and readers look at the kinds and
texts of tokens only, so the second text is read further down as it is alone.
The one diagnostic there may be moves down with it.
-/

namespace SourceModel

/-! ## Readers do not look at positions -/

namespace Token

@[simp] theorem is_down (n : Nat) (t : Token) (text : String) : (t.down n).is text = t.is text := rfl

@[simp] theorem isIdentifier_down (n : Nat) (t : Token) : (t.down n).isIdentifier = t.isIdentifier := rfl

@[simp] theorem text_down (n : Nat) (t : Token) : (t.down n).text = t.text := rfl

end Token

namespace Parsing

section Down
variable (n : Nat)

theorem run_down (width offset : Nat) (ts : List Token) :
    TemplateScan.run width offset (ts.map (Token.down n)) = TemplateScan.run width offset ts := by
  fun_induction TemplateScan.run width offset ts with
  | case1 offset => rw [List.map_nil, TemplateScan.run]
  | case2 offset t rest hclose => rw [List.map_cons, TemplateScan.run, Token.is_down, if_pos hclose]
  | case3 offset t rest hclose hcomma ih =>
    rw [List.map_cons, TemplateScan.run, Token.is_down, if_neg hclose, Token.is_down, if_pos hcomma, ← List.map_drop, ih]
  | case4 offset t rest hclose hcomma =>
    rw [List.map_cons, TemplateScan.run, Token.is_down, if_neg hclose, Token.is_down, if_neg hcomma]

theorem parameters_down (ts : List Token) : parameters (ts.map (Token.down n)) = parameters ts := by
  fun_induction parameters ts with
  | case1 kind name comma rest ih => simp [parameters, ih]
  | case2 kind name => simp [parameters]
  | case3 ts hmany htwo =>
    rcases ts with _ | ⟨t, _ | ⟨u, _ | ⟨v, rest⟩⟩⟩
    · rfl
    · rfl
    · exact absurd rfl (htwo t u)
    · exact absurd rfl (hmany t u v rest)

theorem arguments_down (ts : List Token) : arguments (ts.map (Token.down n)) = arguments ts := by
  fun_induction arguments ts with
  | case1 argument comma rest ih => simp [arguments, ih]
  | case2 argument => rfl
  | case3 => rfl

theorem templateList_down {α : Type} (width : Nat) {elements : List Token → List α}
    (helements : ∀ ts, elements (ts.map (Token.down n)) = elements ts) (ts : List Token) :
    templateList width elements (ts.map (Token.down n)) = templateList width elements ts := by
  cases ts with
  | nil => rfl
  | cons t inner =>
    simp only [List.map_cons, templateList, Token.is_down, ← List.map_drop, ← List.map_take, run_down, helements]

theorem alternative_down (ts : List Token) : alternative (ts.map (Token.down n)) = alternative ts := by
  cases ts with
  | nil => rfl
  | cons t rest =>
    simp only [List.map_cons, alternative, Token.isIdentifier_down, Token.text_down,
      templateList_down n 1 (arguments_down n)]

theorem alternatives_down (ts : List Token) : alternatives (ts.map (Token.down n)) = alternatives ts := by
  induction hlen : ts.length using Nat.strongRecOn generalizing ts with
  | ind len ih =>
    rw [Grammar.alternatives_eq, Grammar.alternatives_eq ts, alternative_down]
    cases alternative ts with
    | error flaw => rfl
    | ok found =>
      obtain ⟨first, k⟩ := found
      simp only [← List.map_drop]
      cases hrest : ts.drop k with
      | nil => rfl
      | cons bar rest =>
        have hlt : rest.length < len := by
          have := congrArg List.length hrest
          rw [List.length_drop, List.length_cons] at this
          omega
        simp only [List.map_cons, Token.is_down, ih rest.length hlt rest rfl]

theorem sumTypeBody_down (ts : List Token) : sumTypeBody (ts.map (Token.down n)) = sumTypeBody ts := by
  cases ts with
  | nil => rfl
  | cons name rest =>
    simp only [List.map_cons, sumTypeBody, Token.isIdentifier_down, Token.text_down,
      templateList_down n 2 (parameters_down n), ← List.map_drop]
    cases templateList 2 parameters rest with
    | error k => rfl
    | ok found =>
      obtain ⟨params, k⟩ := found
      cases hdrop : rest.drop k with
      | nil => simp [hdrop]
      | cons equals cases => simp only [hdrop, List.map_cons, Token.is_down, alternatives_down]

theorem sumType_down (ts : List Token) : sumType (ts.map (Token.down n)) = sumType ts := by
  cases ts with
  | nil => rfl
  | cons t rest => simp only [List.map_cons, sumType, Token.is_down, sumTypeBody_down]

def Failure.down (failure : Failure) : Failure :=
  { failure with position := failure.position.down n }

/-- A file further down is read as the file, and fails further down. -/
theorem parseTokens_down (ts : List Token) :
    parseTokens (ts.map (Token.down n)) =
      { parseTokens ts with failure := (parseTokens ts).failure.map (Failure.down n) } := by
  fun_induction parseTokens ts with
  | case1 => rw [List.map_nil, parseTokens]; rfl
  | case2 t rest type consumed hfound others ih =>
    rw [← sumType_down n, List.map_cons] at hfound
    rw [List.map_cons, parseTokens, hfound]
    simp only [← List.map_drop, ih]
    rfl
  | case3 t rest hfound =>
    rw [← sumType_down n, List.map_cons] at hfound
    rw [List.map_cons, parseTokens, hfound]
    rfl
  | case4 t rest flaw hfound =>
    have hposition : (((t :: rest).map (Token.down n))[flaw.offset]?.getD (t.down n)).position =
        ((t :: rest)[flaw.offset]?.getD t).position.down n := by
      rw [List.getElem?_map]
      cases (t :: rest)[flaw.offset]? <;> rfl
    rw [← sumType_down n, List.map_cons] at hfound
    rw [List.map_cons] at hposition ⊢
    rw [parseTokens, hfound]
    simp only [hposition]
    rfl

end Down

end Parsing

namespace Grammar

open Parsing Lexical

/-! ## How a file ends -/

/-- A name or a closing bracket. -/
def EndMark (t : Token) : Prop :=
  t.isIdentifier = true ∨ t.is ">" = true

theorem AlternativePhrase.exists_last (a : AlternativePhrase) : ∃ front t, a.tokens = front ++ [t] ∧ EndMark t := by
  obtain ⟨name, arguments⟩ := a
  cases arguments with
  | absent => exact ⟨[], name.val, rfl, .inl name.property⟩
  | list opening elements closing =>
    refine ⟨name.val :: opening.val :: elements.tokens argumentTokens, closing.val, ?_, .inr closing.property⟩
    simp [tokens, TemplatePhrase.tokens]

theorem Separated.exists_last {mark : String} {α : Type} (write : α → List Token) (xs : Separated mark α) :
    ∃ front, xs.tokens write = front ++ write xs.final := by
  induction xs with
  | last x => exact ⟨[], rfl⟩
  | more x separator others ih =>
    obtain ⟨front, hfront⟩ := ih
    exact ⟨write x ++ separator.val :: front, by rw [tokens, hfront, final]; simp⟩

theorem DeclarationPhrase.exists_last (d : DeclarationPhrase) : ∃ front t, d.tokens = front ++ [t] ∧ EndMark t := by
  obtain ⟨front, hfront⟩ := d.alternatives.exists_last AlternativePhrase.tokens
  obtain ⟨more, t, hlast, ht⟩ := d.alternatives.final.exists_last
  refine ⟨d.keyword.val :: d.name.val :: (d.parameters.tokens parameterTokens ++ d.equals.val :: (front ++ more)), t,
    ?_, ht⟩
  rw [tokens, body, hfront, hlast]
  simp

theorem endMark_of_file {ds : List DeclarationPhrase} {t : Token}
    (h : t ∈ (ds.flatMap DeclarationPhrase.tokens).getLast?) : EndMark t := by
  rcases List.eq_nil_or_concat ds with rfl | ⟨ds, d, rfl⟩
  · cases h
  · obtain ⟨front, t', hlast, ht'⟩ := d.exists_last
    rw [List.concat_eq_append, List.flatMap_append, List.flatMap_singleton, hlast, ← List.append_assoc,
      List.getLast?_concat] at h
    cases h
    exact ht'

theorem EndMark.not_isOpen {t : Token} (h : EndMark t) : ¬ IsOpen (t.kind, t.text) := by
  rintro ⟨hkind, htext⟩
  rcases h with hname | hclosing
  · rw [Token.isIdentifier, decide_eq_true_eq] at hname
    cases hname.symm.trans hkind
  · rw [Token.is, decide_eq_true_eq] at hclosing
    dsimp only at htext
    rw [hclosing] at htext
    exact absurd htext (by decide)

/-- A text that parses to its end leaves nothing open. -/
theorem closed_of_parseText {a : String} (h : (parseText a).failure = none) : Closed a.toList := by
  obtain ⟨ds, hds⟩ := (isFile_iff _).2 h
  intro l hl
  rw [lexemes_toList, List.getLast?_map] at hl
  obtain ⟨t, ht, rfl⟩ := Option.map_eq_some_iff.1 hl
  rw [hds] at ht
  exact (endMark_of_file ht).not_isOpen

/-! ## One file after another -/

theorem DeclarationPhrase.endsBefore_of_head (d : DeclarationPhrase) {us : List Token}
    (h : ∀ t ∈ us.head?, t.text ≠ "|" ∧ t.text ≠ "<") : d.EndsBefore us := by
  cases us with
  | nil => exact d.endsBefore_nil
  | cons t us =>
    obtain ⟨hbar, hopening⟩ := h t rfl
    refine ⟨by simpa [Token.is] using hbar, ?_⟩
    unfold AlternativePhrase.EndsBefore
    cases d.alternatives.final.arguments with
    | absent => simpa [TemplatePhrase.EndsBefore, Token.is] using hopening
    | list opening elements closing => trivial

/-- Behind a file the pass goes on with what follows, if that does not go on
with the last declaration. -/
theorem parseTokens_append {ts us : List Token} (h : (parseTokens ts).failure = none)
    (hus : ∀ t ∈ us.head?, t.text ≠ "|" ∧ t.text ≠ "<") :
    parseTokens (ts ++ us) =
      ⟨(parseTokens ts).declarations ++ (parseTokens us).declarations, (parseTokens us).failure⟩ := by
  obtain ⟨ds, rfl⟩ := (isFile_iff ts).2 h
  rw [parseTokens_file]
  clear h
  induction ds with
  | nil => rfl
  | cons d ds ih =>
    have hends : d.EndsBefore (ds.flatMap DeclarationPhrase.tokens ++ us) := by
      cases ds with
      | nil => exact d.endsBefore_of_head hus
      | cons d' ds => exact d.endsBefore_keyword d'.keyword.property _
    rw [List.flatMap_cons, List.append_assoc, parseTokens_phrase hends, ih]
    rfl

theorem parseText_join {a b : String} (ha : (parseText a).failure = none)
    (hb : ∀ t ∈ (tokenize b).head?, t.text ≠ "|" ∧ t.text ≠ "<") :
    parseText (a ++ "\n" ++ b) =
      ⟨(parseText a).declarations ++ (parseText b).declarations,
        (parseText b).failure.map (Failure.down (a.toList.count '\n' + 1))⟩ := by
  rw [parseText, tokenize_lineBreak (closed_of_parseText ha), parseTokens_append ha, parseTokens_down]
  · rfl
  · intro t ht
    rw [List.head?_map] at ht
    obtain ⟨t', ht', rfl⟩ := Option.map_eq_some_iff.1 ht
    exact hb t' ht'

/-- A pass fails at a token of the text, so on one of its lines. -/
theorem line_of_failure {b : String} {failure : Failure} (h : (parseText b).failure = some failure) :
    failure.position.line.toNat ≤ b.length := by
  have hmem : ∃ t ∈ tokenize b, failure.position = t.position := by
    rcases failure_cases h with ⟨k, t, hstop⟩ | ⟨ds, t, us, hcut⟩
    · exact ⟨t, List.mem_of_getElem? hstop.token, hstop.position⟩
    · exact ⟨t, by rw [hcut.tokens]; simp, hcut.position⟩
  obtain ⟨t, ht, hposition⟩ := hmem
  rw [tokenize_eq] at ht
  obtain ⟨before, hbefore, hcaret⟩ := exists_position_of_mem ht
  have hline : failure.position.line.toNat ≤ (Caret.start.advance before).line := by
    rw [hposition, hcaret]
    exact Nat.mod_le _ _
  have hcount : (Caret.start.advance before).line ≤ b.toList.length := by
    rw [Caret.advance_start]
    exact Nat.le_trans List.count_le_length hbefore.length_le
  rw [String.length_toList] at hcount
  omega

/-- The same diagnostic, `n` lines further down. -/
structure MovedDown (n : Nat) (d d' : Diagnostic) : Prop where
  message : d'.message = d.message
  document : d'.document = d.document
  column : d'.position.column = d.position.column
  line : d'.position.line.toNat = d.position.line.toNat + n

theorem movedDown_down {n : Nat} {failure : Failure} (file : Path)
    (h : failure.position.line.toNat + n < UInt32.size) :
    MovedDown n ⟨failure.flaw.fault.message, file, failure.position⟩
      ⟨(failure.down n).flaw.fault.message, file, (failure.down n).position⟩ where
  message := rfl
  document := rfl
  column := rfl
  line := Position.toNat_line_down h

/-- Where a text that parses to its end is cut off from what follows it makes no
difference. With a line break between them, two texts give the outcome of the
second, the declarations of both, and the table that the first and then the
second give, but for the diagnostic of the second: it stands further down, by
the lines of the first. -/
theorem parse_join (a b : String) (file : Path) (table : SymbolTable) (hlen : (a ++ "\n" ++ b).length < 2 ^ 32)
    (ha : (parseText a).outcome = .success) (hb : ∀ t ∈ (tokenize b).head?, t.text ≠ "|" ∧ t.text ≠ "<") :
    (parseText (a ++ "\n" ++ b)).outcome = (parseText b).outcome ∧
    (parseText (a ++ "\n" ++ b)).declarations.length =
      (parseText a).declarations.length + (parseText b).declarations.length ∧
    ∃ found moved : List Diagnostic,
      let first := table.augment file (parseText a)
      let both := first.augment file (parseText b)
      both.diagnostics = first.diagnostics ++ found ∧
      table.augment file (parseText (a ++ "\n" ++ b)) = { both with diagnostics := first.diagnostics ++ moved } ∧
      List.Forall₂ (MovedDown (1 + a.toList.count '\n')) found moved := by
  have hsuccess : (parseText a).failure = none := by
    cases hfail : (parseText a).failure with
    | none => rfl
    | some failure => simp [ParsedFile.outcome, hfail] at ha
  have hjoin := parseText_join hsuccess hb
  refine ⟨?_, ?_, SymbolTable.diagnosticsOf file (parseText b),
    SymbolTable.diagnosticsOf file (parseText (a ++ "\n" ++ b)), ?_, ?_, ?_⟩
  · rw [hjoin, ParsedFile.outcome, ParsedFile.outcome, Option.isSome_map]
  · rw [hjoin, List.length_append]
  · simp only [SymbolTable.augment_eq]
  · have hfirst : SymbolTable.diagnosticsOf file (parseText a) = [] := by
      rw [SymbolTable.diagnosticsOf, hsuccess]
      rfl
    simp only [SymbolTable.augment_eq, hfirst, List.append_nil, hjoin, List.foldl_append]
  · simp only [SymbolTable.diagnosticsOf, hjoin, Nat.add_comm 1]
    cases hfail : (parseText b).failure with
    | none => exact .nil
    | some failure =>
      refine .cons (movedDown_down file ?_) .nil
      have hline := line_of_failure hfail
      have hcount : a.toList.count '\n' ≤ a.length := by
        rw [← String.length_toList]
        exact List.count_le_length
      have hbreak : "\n".length = 1 := rfl
      rw [String.length_append, String.length_append, hbreak] at hlen
      rw [UInt32.size]
      omega

/-- A text with an unknown token among its template arguments and a comment at
its end, before one that breaks off. -/
theorem parse_join_unknown :
    let a := "sumtype A\n= B<#> // end"
    let b := "\nsumtype C"
    (parseText a).outcome = .success ∧ (∀ t ∈ (tokenize b).head?, t.text ≠ "|" ∧ t.text ≠ "<") ∧
      (parseText (a ++ "\n" ++ b)).outcome = (parseText b).outcome ∧
      (parseText (a ++ "\n" ++ b)).declarations.length =
        (parseText a).declarations.length + (parseText b).declarations.length ∧
      (parseText b).failure.map (·.position) = some ⟨1, 0⟩ ∧
      (parseText (a ++ "\n" ++ b)).failure.map (·.position) = some ⟨3, 0⟩ := by
  intro a b
  have ha : (parseText a).outcome = .success := by decide +kernel
  have hb : ∀ t ∈ (tokenize b).head?, t.text ≠ "|" ∧ t.text ≠ "<" := by decide +kernel
  obtain ⟨houtcome, hcount, -⟩ := parse_join a b ⟨"a.epoch"⟩ .empty (by decide) ha hb
  exact ⟨ha, hb, houtcome, hcount, by decide +kernel, by decide +kernel⟩

end Grammar

end SourceModel
