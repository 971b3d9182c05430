import SourceModel.Project.Survey
import SourceModel.Proofs.Lexical.Layout
import SourceModel.Proofs.Parsing.Viable
/-!
# Sum types written down and read back

`SumType.words` writes a sum type in the grammar. A list of sum types written
in any layout is parsed into the same list, so a table holds the first of each
name, and every sum type parsed from a text without unknown tokens is one that
can be written.
-/

namespace SourceModel

open Lexical

/-! ## Writing -/

/-- The words of a template list. One without elements is not written. -/
def templateWords (elements : List (List String)) : List String :=
  if elements = [] then [] else "<" :: ([","].intercalate elements ++ [">"])

def TemplateParameter.words (p : TemplateParameter) : List String :=
  [p.typeName, p.name]

def Alternative.words (a : Alternative) : List String :=
  a.name :: templateWords (a.arguments.map fun w => [w])

def SumType.words (s : SumType) : List String :=
  "sumtype" :: s.name :: (templateWords (s.parameters.map TemplateParameter.words) ++
    "=" :: ["|"].intercalate (s.alternatives.map Alternative.words))

/-- The alternative is a name with lexemes for arguments. -/
structure Alternative.Writable (a : Alternative) : Prop where
  name : Lexeme .identifier a.name
  arguments : ∀ w ∈ a.arguments, IsLexeme w

/-- The sum type is made of lexemes, its names are identifiers, and it has an
alternative. -/
structure SumType.Writable (s : SumType) : Prop where
  name : Lexeme .identifier s.name
  parameters : ∀ p ∈ s.parameters, IsLexeme p.typeName ∧ IsLexeme p.name
  nonempty : s.alternatives ≠ []
  alternatives : ∀ a ∈ s.alternatives, a.Writable

/-! ## Words are lexemes -/

theorem lexeme_identifier {text : String} {c : Char} {body : List Char} (htext : text.toList = c :: body)
    (hc : isIdentifierStart c = true) (hbody : body.all isIdentifierPart = true) : Lexeme .identifier text :=
  ⟨.identifier, rfl, c, body, htext, hc, List.all_eq_true.1 hbody⟩

theorem lexeme_keyword : Lexeme .identifier "sumtype" :=
  lexeme_identifier (show _ = 's' :: "umtype".toList by decide) (by decide) (by decide)

theorem isLexeme_mark {mark : String} (h : mark ∈ ["<", ",", ">", "=", "|"]) : IsLexeme mark := by
  refine ⟨.punctuation, .punctuation, rfl, .inl ?_⟩
  simp only [List.mem_cons, List.not_mem_nil, or_false] at h
  rcases h with rfl | rfl | rfl | rfl | rfl
  · exact ⟨'<', by decide, by decide⟩
  · exact ⟨',', by decide, by decide⟩
  · exact ⟨'>', by decide, by decide⟩
  · exact ⟨'=', by decide, by decide⟩
  · exact ⟨'|', by decide, by decide⟩

theorem isLexeme_intercalate {mark : String} (hmark : IsLexeme mark) {elements : List (List String)}
    (h : ∀ e ∈ elements, ∀ w ∈ e, IsLexeme w) : ∀ w ∈ [mark].intercalate elements, IsLexeme w := by
  induction elements with
  | nil => simp
  | cons e elements ih =>
    cases elements with
    | nil => simpa using h
    | cons e' elements =>
      intro w hw
      rw [List.intercalate_cons_cons, List.mem_append, List.mem_append, List.mem_singleton] at hw
      rcases hw with (hw | rfl) | hw
      · exact h e (by simp) w hw
      · exact hmark
      · exact ih (fun e he => h e (List.mem_cons_of_mem _ he)) w hw

theorem isLexeme_templateWords {elements : List (List String)} (h : ∀ e ∈ elements, ∀ w ∈ e, IsLexeme w) :
    ∀ w ∈ templateWords elements, IsLexeme w := by
  intro w hw
  unfold templateWords at hw
  split at hw
  · simp at hw
  · rw [List.mem_cons, List.mem_append, List.mem_singleton] at hw
    rcases hw with rfl | hw | rfl
    · exact isLexeme_mark (by decide)
    · exact isLexeme_intercalate (isLexeme_mark (by decide)) h w hw
    · exact isLexeme_mark (by decide)

theorem Alternative.Writable.isLexeme {a : Alternative} (h : a.Writable) : ∀ w ∈ a.words, IsLexeme w := by
  refine List.forall_mem_cons.2 ⟨⟨_, h.name⟩, isLexeme_templateWords ?_⟩
  simpa using h.arguments

theorem SumType.Writable.isLexeme {s : SumType} (h : s.Writable) : ∀ w ∈ s.words, IsLexeme w := by
  refine List.forall_mem_cons.2 ⟨⟨_, lexeme_keyword⟩, List.forall_mem_cons.2 ⟨⟨_, h.name⟩, ?_⟩⟩
  refine List.forall_mem_append.2 ⟨isLexeme_templateWords ?_, List.forall_mem_cons.2 ⟨isLexeme_mark (by decide), ?_⟩⟩
  · simpa [TemplateParameter.words] using h.parameters
  · refine isLexeme_intercalate (isLexeme_mark (by decide)) ?_
    rw [List.forall_mem_map]
    exact fun a ha => (h.alternatives a ha).isLexeme

namespace Grammar

/-! ## Words are phrases -/

section
variable {α β : Type} {write : α → List Token} {words : β → List String} {meaning : α → β}

/-- Whatever tokens spell the words of `x` are a phrase that means `x`. -/
def Spelled (write : α → List Token) (words : β → List String) (meaning : α → β) (x : β) : Prop :=
  ∀ {ts}, Spells ts (words x) → ∃ a, write a = ts ∧ meaning a = x

theorem exists_separated {mark : String} {xs : List β} (hne : xs ≠ [])
    (h : ∀ x ∈ xs, Spelled write words meaning x) {ts : List Token}
    (hts : Spells ts ([mark].intercalate (xs.map words))) :
    ∃ l : Separated mark α, l.tokens write = ts ∧ l.toList.map meaning = xs := by
  induction xs generalizing ts with
  | nil => exact absurd rfl hne
  | cons x xs ih =>
    cases xs with
    | nil =>
      rw [List.map_singleton, List.intercalate_singleton] at hts
      obtain ⟨a, rfl, rfl⟩ := h x (by simp) hts
      exact ⟨.last a, rfl, rfl⟩
    | cons x' xs =>
      rw [List.map_cons, List.map_cons, List.intercalate_cons_cons, List.append_assoc] at hts
      obtain ⟨first, rest, rfl, hfirst, hrest⟩ := hts.of_append
      obtain ⟨t, rest, rfl, ht, -, hrest⟩ := hrest.of_cons
      obtain ⟨a, rfl, rfl⟩ := h x (by simp) hfirst
      obtain ⟨l, rfl, hl⟩ := ih (by simp) (fun x hx => h x (List.mem_cons_of_mem _ hx)) hrest
      exact ⟨.more a ⟨t, by simp [Token.is, ht]⟩ l, rfl, by rw [Separated.toList, List.map_cons, hl]⟩

theorem exists_templatePhrase {xs : List β} (h : ∀ x ∈ xs, Spelled write words meaning x) {ts : List Token}
    (hts : Spells ts (templateWords (xs.map words))) :
    ∃ p : TemplatePhrase α, p.tokens write = ts ∧ p.elements.map meaning = xs := by
  by_cases hne : xs = []
  · subst hne
    exact ⟨.absent, hts.of_nil.symm, rfl⟩
  · rw [templateWords, if_neg (by simpa using hne)] at hts
    obtain ⟨opening, rest, rfl, hopening, -, hrest⟩ := hts.of_cons
    obtain ⟨inner, last, rfl, hinner, hlast⟩ := hrest.of_append
    obtain ⟨closing, none, rfl, hclosing, -, hnone⟩ := hlast.of_cons
    obtain ⟨l, rfl, hl⟩ := exists_separated hne h hinner
    refine ⟨.list ⟨opening, by simp [Token.is, hopening]⟩ l ⟨closing, by simp [Token.is, hclosing]⟩, ?_, hl⟩
    rw [hnone.of_nil]
    rfl

end

/-- A token that spells an identifier is one. -/
theorem isIdentifier_of_lexeme {t : Token} {w : String} (h : Lexeme t.kind w) (hw : Lexeme .identifier w) :
    t.isIdentifier = true := by
  simp [Token.isIdentifier, h.kind_eq hw]

theorem argument_spelled (w : String) : Spelled argumentTokens (fun w => [w]) (·.text) w := by
  intro ts hts
  obtain ⟨t, rest, rfl, rfl, -, hrest⟩ := hts.of_cons
  exact ⟨t, by rw [hrest.of_nil]; rfl, rfl⟩

theorem parameter_spelled (p : TemplateParameter) :
    Spelled parameterTokens TemplateParameter.words parameterMeaning p := by
  intro ts hts
  obtain ⟨t, rest, rfl, htype, -, hrest⟩ := hts.of_cons
  obtain ⟨u, rest, rfl, hname, -, hrest⟩ := hrest.of_cons
  exact ⟨(t, u), by rw [hrest.of_nil]; rfl, by rw [parameterMeaning, htype, hname]⟩

theorem alternative_spelled {a : Alternative} (h : a.Writable) :
    Spelled AlternativePhrase.tokens Alternative.words AlternativePhrase.meaning a := by
  intro ts hts
  obtain ⟨t, rest, rfl, htext, hname, hrest⟩ := hts.of_cons
  obtain ⟨arguments, rfl, harguments⟩ := exists_templatePhrase (fun w _ => argument_spelled w) hrest
  exact ⟨⟨⟨t, isIdentifier_of_lexeme hname h.name⟩, arguments⟩, rfl,
    by rw [AlternativePhrase.meaning, htext, harguments]⟩

theorem declaration_spelled {s : SumType} (h : s.Writable) :
    Spelled DeclarationPhrase.tokens SumType.words DeclarationPhrase.meaning s := by
  intro ts hts
  obtain ⟨keyword, body, rfl, hkeyword, -, hbody⟩ := hts.of_cons
  obtain ⟨t, rest, rfl, htext, hname, hrest⟩ := hbody.of_cons
  obtain ⟨list, right, rfl, hlist, hright⟩ := hrest.of_append
  obtain ⟨equals, choice, rfl, hequals, -, hchoice⟩ := hright.of_cons
  obtain ⟨parameters, rfl, hps⟩ := exists_templatePhrase (fun p _ => parameter_spelled p) hlist
  obtain ⟨alternatives, rfl, has⟩ :=
    exists_separated h.nonempty (fun a ha => alternative_spelled (h.alternatives a ha)) hchoice
  exact ⟨⟨⟨keyword, by simp [Token.is, hkeyword]⟩, ⟨t, isIdentifier_of_lexeme hname h.name⟩, parameters,
    ⟨equals, by simp [Token.is, hequals]⟩, alternatives⟩, rfl, by rw [DeclarationPhrase.meaning, htext, hps, has]⟩

theorem exists_declarations {types : List SumType} (h : ∀ s ∈ types, s.Writable) {ts : List Token}
    (hts : Spells ts (types.flatMap SumType.words)) :
    ∃ ds : List DeclarationPhrase, ds.flatMap DeclarationPhrase.tokens = ts ∧
      ds.map DeclarationPhrase.meaning = types := by
  induction types generalizing ts with
  | nil => exact ⟨[], hts.of_nil.symm, rfl⟩
  | cons s types ih =>
    rw [List.flatMap_cons] at hts
    obtain ⟨first, rest, rfl, hfirst, hrest⟩ := hts.of_append
    obtain ⟨d, rfl, rfl⟩ := declaration_spelled (h s (by simp)) hfirst
    obtain ⟨ds, rfl, rfl⟩ := ih (fun s hs => h s (List.mem_cons_of_mem _ hs)) hrest
    exact ⟨d :: ds, rfl, rfl⟩

/-- Sum types written in any layout are read back. -/
theorem parseText_layout {types : List SumType} (h : ∀ s ∈ types, s.Writable) {source : String}
    (hlayout : Layout (types.flatMap SumType.words) source.toList) : Parsing.parseText source = ⟨types, none⟩ := by
  have hwords : ∀ w ∈ types.flatMap SumType.words, IsLexeme w := by
    intro w hw
    obtain ⟨s, hs, hw⟩ := List.mem_flatMap.1 hw
    exact (h s hs).isLexeme w hw
  obtain ⟨ds, hds, rfl⟩ := exists_declarations h (hlayout.spells hwords)
  rw [Parsing.parseText, ← hds, parseTokens_file]

/-! ## Phrases are made of their tokens -/

theorem Separated.mem_tokens {mark : String} {α : Type} {write : α → List Token} {l : Separated mark α} {x : α}
    (hx : x ∈ l.toList) {t : Token} (ht : t ∈ write x) : t ∈ l.tokens write := by
  induction l with
  | last y =>
    rw [toList, List.mem_singleton] at hx
    subst hx
    exact ht
  | more y separator others ih =>
    rw [tokens, List.mem_append]
    rcases List.mem_cons.1 hx with rfl | hx
    · exact .inl ht
    · exact .inr (List.mem_cons_of_mem _ (ih hx))

theorem TemplatePhrase.mem_tokens {α : Type} {write : α → List Token} {p : TemplatePhrase α} {x : α}
    (hx : x ∈ p.elements) {t : Token} (ht : t ∈ write x) : t ∈ p.tokens write := by
  cases p with
  | absent => cases hx
  | list opening elements closing =>
    exact List.mem_cons_of_mem _ (List.mem_append_left _ (Separated.mem_tokens hx ht))

theorem AlternativePhrase.writable {a : AlternativePhrase} (h : ∀ t ∈ a.tokens, Lexeme t.kind t.text) :
    a.meaning.Writable where
  name := by
    have hname := h a.name.val (by simp [tokens])
    rwa [of_decide_eq_true a.name.property] at hname
  arguments := by
    intro w hw
    obtain ⟨t, ht, rfl⟩ := List.mem_map.1 hw
    exact ⟨t.kind, h t (List.mem_cons_of_mem _ (TemplatePhrase.mem_tokens ht (by simp [argumentTokens])))⟩

theorem DeclarationPhrase.writable {d : DeclarationPhrase} (h : ∀ t ∈ d.tokens, Lexeme t.kind t.text) :
    d.meaning.Writable where
  name := by
    have hname := h d.name.val (by simp [tokens, body])
    rwa [of_decide_eq_true d.name.property] at hname
  parameters := by
    intro p hp
    obtain ⟨⟨t, u⟩, htu, rfl⟩ := List.mem_map.1 hp
    have hmem : ∀ v ∈ parameterTokens (t, u), Lexeme v.kind v.text := by
      intro v hv
      have hin := TemplatePhrase.mem_tokens htu hv
      exact h v (by simp [tokens, body, hin])
    exact ⟨⟨t.kind, hmem t (by simp [parameterTokens])⟩, u.kind, hmem u (by simp [parameterTokens])⟩
  nonempty := by
    rw [meaning, Ne, List.map_eq_nil_iff]
    exact d.alternatives.toList_ne_nil
  alternatives := by
    intro a ha
    obtain ⟨phrase, hphrase, rfl⟩ := List.mem_map.1 ha
    refine AlternativePhrase.writable fun t ht => ?_
    have hmem := Separated.mem_tokens hphrase ht
    exact h t (by simp [tokens, body, hmem])

/-- A sum type that a pass recognises is written in the tokens. -/
theorem Split.exists_phrase {ts rest : List Token} {ws : List (List Token)} (h : Split ts ws rest) {s : SumType}
    (hs : s ∈ (Parsing.parseTokens ts).declarations) : ∃ d : DeclarationPhrase, d.meaning = s ∧ d.tokens ⊆ ts := by
  induction h with
  | @rest ts hstop =>
    by_cases hnil : ts = []
    · subst hnil
      simp [Parsing.parseTokens] at hs
    · rw [(parseTokens_stuck hnil (hstop.resolve_left hnil)).1] at hs
      cases hs
  | declaration hw _ ih =>
    obtain ⟨d, rfl, hends⟩ := hw
    rw [parseTokens_phrase hends] at hs
    rcases List.mem_cons.1 hs with rfl | hs
    · exact ⟨d, rfl, List.subset_append_left _ _⟩
    · obtain ⟨d', hd', hsubset⟩ := ih hs
      exact ⟨d', hd', List.subset_append_of_subset_right _ hsubset⟩

/-- Every sum type in a text without unknown tokens can be written. -/
theorem writable_of_mem_parseText {source : String} (h : ∀ t ∈ tokenize source, t.kind ≠ .unknown) {s : SumType}
    (hs : s ∈ (Parsing.parseText source).declarations) : s.Writable := by
  obtain ⟨ws, rest, hsplit⟩ := exists_split (tokenize source)
  obtain ⟨d, rfl, htokens⟩ := hsplit.exists_phrase hs
  exact DeclarationPhrase.writable fun t ht => lexeme_of_mem_tokenize (htokens ht) (h t (htokens ht))

/-- Sum types survive being written and read. Whatever the layout, the pass
succeeds with one declaration for each, leaves no diagnostic, and the table
answers every name with the first of that name. Conversely, whatever a pass
over a text without unknown tokens adds to a table can be written. -/
theorem sumTypes_roundTrip :
    (∀ (types : List SumType) (source : String) (file : Path), (∀ s ∈ types, s.Writable) →
      Layout (types.flatMap SumType.words) source.toList →
        (Parsing.parseText source).outcome = .success ∧
        (Parsing.parseText source).declarations.length = types.length ∧
        (SymbolTable.empty.augment file (Parsing.parseText source)).diagnostics = [] ∧
        ∀ name, (SymbolTable.empty.augment file (Parsing.parseText source)).sumTypes.find? name =
          types.find? (·.name = name)) ∧
    ∀ (source : String) (file : Path) (table : SymbolTable), (∀ t ∈ tokenize source, t.kind ≠ .unknown) →
      (∀ s ∈ (Parsing.parseText source).declarations, s.Writable) ∧
      ∀ name s, table.sumTypes.find? name = none →
        (table.augment file (Parsing.parseText source)).sumTypes.find? name = some s → s.Writable := by
  constructor
  · intro types source file htypes hlayout
    rw [parseText_layout htypes hlayout]
    refine ⟨rfl, rfl, ?_, fun name => ?_⟩
    · rw [SymbolTable.augment_eq]
      rfl
    · rw [SymbolTable.find?_augment]
      rfl
  · intro source file table hknown
    have hwritable : ∀ s ∈ (Parsing.parseText source).declarations, s.Writable :=
      fun s hs => writable_of_mem_parseText hknown hs
    refine ⟨hwritable, fun name s hfree hfound => ?_⟩
    rw [SymbolTable.find?_augment, hfree, Option.none_or] at hfound
    exact hwritable s (List.mem_of_find?_eq_some hfound)

/-- Marks as template tokens, the keyword as an alternative and a comment
between two words. -/
theorem sumTypes_roundTrip_pair :
    let pair : SumType := ⟨"Pair", [⟨">", ","⟩], [⟨"sumtype", []⟩, ⟨"B", ["0"]⟩]⟩
    let parsed := Parsing.parseText "sumtype Pair // two\n< > , > = sumtype | B < 0 >"
    parsed.outcome = .success ∧ parsed.declarations.length = 1 ∧
      (SymbolTable.empty.augment ⟨"pair"⟩ parsed).sumTypes.find? "Pair" = some pair ∧
      ∀ s ∈ parsed.declarations, s.Writable := by
  intro pair parsed
  have hpair : pair.Writable := by
    refine ⟨lexeme_identifier (show _ = 'P' :: "air".toList by decide) (by decide) (by decide), ?_, by decide, ?_⟩
    · exact List.forall_mem_singleton.2 ⟨isLexeme_mark (by decide), isLexeme_mark (by decide)⟩
    · refine List.forall_mem_cons.2 ⟨⟨lexeme_keyword, by simp⟩, List.forall_mem_singleton.2 ⟨?_, ?_⟩⟩
      · exact lexeme_identifier (show _ = ['B'] by decide) (by decide) (by decide)
      · have hdigits : "0".toList.all isDigit = true := by decide
        exact List.forall_mem_singleton.2 ⟨.number, .number, rfl, .inr (.inl ⟨by decide, List.all_eq_true.1 hdigits⟩)⟩
  have hspace : Separator [' '] := ⟨by decide, .nil⟩
  have hcomment : Separator " // two\n".toList :=
    ⟨by decide, .lineComment (by decide : '\n' ∉ " two".toList) .nil⟩
  have hspaced : Spaced ["sumtype", "Pair", "<", ">", ",", ">", "=", "sumtype", "|", "B", "<", "0", ">"] _ :=
    .cons hspace <| .cons hcomment <| .cons hspace <| .cons hspace <| .cons hspace <| .cons hspace <|
      .cons hspace <| .cons hspace <| .cons hspace <| .cons hspace <| .cons hspace <| .cons hspace <| .last ">"
  have hlayout : Layout ([pair].flatMap SumType.words)
      "sumtype Pair // two\n< > , > = sumtype | B < 0 >".toList :=
    ⟨[], _, .nil, hspaced, by decide⟩
  obtain ⟨hsuccess, hlength, -, hfind⟩ :=
    sumTypes_roundTrip.1 [pair] _ ⟨"pair"⟩ (List.forall_mem_singleton.2 hpair) hlayout
  refine ⟨hsuccess, hlength, hfind "Pair", ?_⟩
  exact (sumTypes_roundTrip.2 _ ⟨"pair"⟩ .empty (by decide +kernel)).1

end Grammar

end SourceModel
