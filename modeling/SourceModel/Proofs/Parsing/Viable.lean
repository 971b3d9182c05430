import SourceModel.Proofs.Parsing.Split
/-!
# Where a pass stops

A token list is viable when some continuation makes it a file, that is a
concatenation of declarations. A pass that stops early reports the first token
at which its file stops being viable, and nothing after that token matters. If
the file is viable to its end, its last declaration is unfinished, and the
pass reports the keyword that starts it.
-/

namespace SourceModel.Grammar

open Parsing

def IsFile (ts : List Token) : Prop :=
  ∃ ds : List DeclarationPhrase, ts = ds.flatMap DeclarationPhrase.tokens

/-- Some continuation makes a file. -/
def Viable (ts : List Token) : Prop :=
  ∃ more, IsFile (ts ++ more)

/-- The start of a declaration that is not yet one. -/
structure Unfinished (ts : List Token) : Prop where
  nonempty : ts ≠ []
  starts : ∃ d : DeclarationPhrase, ts <+: d.tokens
  incomplete : ∀ d : DeclarationPhrase, d.tokens ≠ ts

/-! ## Files and viable lists -/

/-- A keyword ends every declaration before it. -/
theorem DeclarationPhrase.endsBefore_keyword (d : DeclarationPhrase) {t : Token} (ht : t.is "sumtype" = true)
    (rest : List Token) : d.EndsBefore (t :: rest) :=
  ⟨is_false_of_is ht (by decide), d.alternatives.final.arguments.endsBefore_cons (by decide) ht rest⟩

/-- Whether a declaration is over is up to the next token alone. -/
theorem DeclarationPhrase.EndsBefore.of_head {d : DeclarationPhrase} {t : Token} {rest : List Token}
    (h : d.EndsBefore (t :: rest)) (more : List Token) : d.EndsBefore (t :: more) :=
  ⟨h.1, TemplatePhrase.EndsBefore.of_head h.2 more⟩

theorem DeclarationPhrase.endsBefore_flatMap (d : DeclarationPhrase) (ds : List DeclarationPhrase) :
    d.EndsBefore (ds.flatMap DeclarationPhrase.tokens) := by
  cases ds with
  | nil => exact d.endsBefore_nil
  | cons d' ds => exact d.endsBefore_keyword d'.keyword.property _

/-- A file is parsed to its end. -/
theorem parseTokens_file (ds : List DeclarationPhrase) :
    parseTokens (ds.flatMap DeclarationPhrase.tokens) = ⟨ds.map DeclarationPhrase.meaning, none⟩ := by
  induction ds with
  | nil => rw [List.flatMap_nil, parseTokens]; rfl
  | cons d ds ih => rw [List.flatMap_cons, parseTokens_phrase (d.endsBefore_flatMap ds), ih]; rfl

theorem Split.isFile {ts : List Token} {ws : List (List Token)} (h : Split ts ws []) : IsFile ts := by
  generalize hrest : ([] : List Token) = rest at h
  induction h with
  | rest =>
    subst hrest
    exact ⟨[], rfl⟩
  | declaration hw _ ih =>
    obtain ⟨d, rfl, -⟩ := hw
    obtain ⟨ds, rfl⟩ := ih hrest
    exact ⟨d :: ds, List.flatMap_cons.symm⟩

/-- The pass succeeds on files only. -/
theorem isFile_iff (ts : List Token) : IsFile ts ↔ (parseTokens ts).failure = none := by
  constructor
  · rintro ⟨ds, rfl⟩
    rw [parseTokens_file]
  · intro hsuccess
    obtain ⟨ws, rest, hsplit⟩ := exists_split ts
    obtain rfl := hsplit.parse.2.1 hsuccess
    exact hsplit.isFile

theorem Viable.of_append {ts us : List Token} (h : Viable (ts ++ us)) : Viable ts := by
  obtain ⟨more, hfile⟩ := h
  exact ⟨us ++ more, by rwa [List.append_assoc] at hfile⟩

theorem viable_of_prefix {ts : List Token} {d : DeclarationPhrase} (h : ts <+: d.tokens) : Viable ts := by
  obtain ⟨more, hmore⟩ := h
  exact ⟨more, [d], by simp [hmore]⟩

theorem Viable.append {ts : List Token} (d : DeclarationPhrase) (h : Viable ts) : Viable (d.tokens ++ ts) := by
  obtain ⟨more, ds, hds⟩ := h
  exact ⟨more, d :: ds, by rw [List.append_assoc, hds, List.flatMap_cons]⟩

/-- Tokens that every continuation leaves without success are not viable. -/
theorem not_viable {ts : List Token} (h : ∀ us, (parseTokens (ts ++ us)).failure ≠ none) : ¬ Viable ts := by
  rintro ⟨more, ds, hds⟩
  apply h more
  rw [hds, parseTokens_file]

/-! ## The place of a failure -/

/-- The pass stopped at the token with index `k`, and would have whatever came
after it. -/
structure StoppedAt (ts : List Token) (failure : Failure) (k : Nat) (t : Token) : Prop where
  token : ts[k]? = some t
  position : failure.position = t.position
  viable : Viable (ts.take k)
  stops : ∀ us, parseTokens (ts.take (k + 1) ++ us) = parseTokens ts

/-- The pass reached the end inside a declaration that starts with `t`. -/
structure Truncated (ts : List Token) (failure : Failure) (ds : List DeclarationPhrase) (t : Token)
    (us : List Token) : Prop where
  tokens : ts = ds.flatMap DeclarationPhrase.tokens ++ t :: us
  position : failure.position = t.position
  starts : ∃ d : DeclarationPhrase, t :: us <+: d.tokens

theorem StoppedAt.phrase_append {d : DeclarationPhrase} {rest : List Token} {failure : Failure} {k : Nat} {t : Token}
    (hends : d.EndsBefore rest) (h : StoppedAt rest failure k t) :
    StoppedAt (d.tokens ++ rest) failure (d.tokens.length + k) t where
  token := by rw [List.getElem?_append_right (by omega), Nat.add_sub_cancel_left]; exact h.token
  position := h.position
  viable := by rw [List.take_length_add_append]; exact h.viable.append d
  stops us := by
    cases rest with
    | nil => exact absurd h.token (by simp)
    | cons t' rest =>
      have hstops := h.stops us
      rw [Nat.add_assoc, List.take_length_add_append, List.append_assoc, parseTokens_phrase hends]
      rw [List.take_succ_cons, List.cons_append] at hstops ⊢
      rw [parseTokens_phrase (hends.of_head _), hstops]

theorem Truncated.phrase_append {d : DeclarationPhrase} {rest : List Token} {failure : Failure}
    {ds : List DeclarationPhrase} {t : Token} {us : List Token} (h : Truncated rest failure ds t us) :
    Truncated (d.tokens ++ rest) failure (d :: ds) t us where
  tokens := by rw [h.tokens, List.flatMap_cons, List.append_assoc]
  position := h.position
  starts := h.starts

/-- A token that starts no declaration stops the pass. -/
theorem stoppedAt_noMatch {t : Token} {ts : List Token} (h : sumType (t :: ts) = .noMatch) :
    StoppedAt (t :: ts) ⟨⟨.unrecognized t.text, 0⟩, t.position⟩ 0 t where
  token := rfl
  position := rfl
  viable := ⟨[], [], rfl⟩
  stops us := by
    have hall : ∀ us, sumType (t :: us) = .noMatch := by
      intro us
      rw [sumType] at h ⊢
      split at h
      · split at h <;> cases h
      · rename_i hkey
        rw [if_neg hkey]
    rw [List.take_succ_cons, List.take_zero, List.cons_append, List.nil_append, parseTokens, hall us, parseTokens, h]

/-- A malformed declaration stops the pass at a token, or runs into the end. -/
theorem malformed_cases {t : Token} {ts : List Token} {flaw : Flaw} (h : sumType (t :: ts) = .malformed flaw) :
    (∃ k t', StoppedAt (t :: ts) ⟨flaw, ((t :: ts)[flaw.offset]?.getD t).position⟩ k t') ∨
    Truncated (t :: ts) ⟨flaw, ((t :: ts)[flaw.offset]?.getD t).position⟩ [] t ts := by
  obtain ⟨k, hk, -, ⟨d, hd⟩, hstop⟩ := refused_of_malformed h
  rw [hk]
  by_cases hlt : k < ts.length
  · -- The token refused is there, and the reader says the same whatever follows it.
    refine .inl ⟨k + 1, ts[k], ?_, ?_, viable_of_prefix hd, fun us => ?_⟩
    · rw [List.getElem?_cons_succ, List.getElem?_eq_getElem hlt]
    · rw [List.getElem?_cons_succ, List.getElem?_eq_getElem hlt, Option.getD_some]
    · have hlook : (ts.take (k + 1) ++ us)[k]? = ts[k]? := by
        rw [List.getElem?_append_left (by rw [List.length_take]; omega), List.getElem?_take_of_lt (by omega)]
      rw [List.take_succ_cons, List.cons_append, parseTokens, hstop hlt us, parseTokens, h]
      simp only [hk, List.getElem?_cons_succ, hlook]
  · -- There is none, so all the tokens start a declaration.
    refine .inr ⟨rfl, ?_, d, ?_⟩
    · rw [List.getElem?_cons_succ, List.getElem?_eq_none (by omega), Option.getD_none]
    · rwa [List.take_of_length_le (by rw [List.length_cons]; omega)] at hd

theorem failure_cases {ts : List Token} {failure : Failure} (h : (parseTokens ts).failure = some failure) :
    (∃ k t, StoppedAt ts failure k t) ∨ ∃ ds t us, Truncated ts failure ds t us := by
  induction hn : ts.length using Nat.strongRecOn generalizing ts with
  | ind n ih =>
    cases ts with
    | nil => rw [parseTokens] at h; cases h
    | cons t ts =>
      cases hfound : sumType (t :: ts) with
      | matched type consumed =>
        obtain ⟨d, rest, hts, hends⟩ := phrase_of_matched hfound
        rw [hts, parseTokens_phrase hends] at h
        have hlen := congrArg List.length hts
        have hpos := List.length_pos_iff.2 d.tokens_ne_nil
        rw [List.length_append] at hlen
        rw [hts]
        -- What goes wrong behind a declaration goes wrong in the whole, that much later.
        rcases ih rest.length (by omega) h rfl with ⟨k, t', hstop⟩ | ⟨ds, t', us, hcut⟩
        · exact .inl ⟨_, t', hstop.phrase_append hends⟩
        · exact .inr ⟨d :: ds, t', us, hcut.phrase_append⟩
      | noMatch =>
        rw [parseTokens, hfound] at h
        cases h
        exact .inl ⟨0, t, stoppedAt_noMatch hfound⟩
      | malformed flaw =>
        rw [parseTokens, hfound] at h
        cases h
        rcases malformed_cases hfound with ⟨k, t', hstop⟩ | hcut
        · exact .inl ⟨k, t', hstop⟩
        · exact .inr ⟨[], t, ts, hcut⟩

/-! ## The first token that is not viable -/

theorem StoppedAt.not_viable_take {ts : List Token} {failure : Failure} {k : Nat} {t : Token}
    (h : StoppedAt ts failure k t) (hfail : (parseTokens ts).failure = some failure) :
    ¬ Viable (ts.take (k + 1)) := by
  apply not_viable
  intro us
  rw [h.stops us, hfail]
  simp

theorem StoppedAt.viable_take {ts : List Token} {failure : Failure} {k : Nat} {t : Token}
    (h : StoppedAt ts failure k t) {j : Nat} (hj : j < k) : Viable (ts.take (j + 1)) := by
  have hsplit : ts.take k = ts.take (j + 1) ++ (ts.take k).drop (j + 1) := by
    conv_lhs => rw [← List.take_append_drop (j + 1) (ts.take k)]
    rw [List.take_take, Nat.min_eq_left (by omega)]
  exact (hsplit ▸ h.viable).of_append

theorem StoppedAt.not_viable {ts : List Token} {failure : Failure} {k : Nat} {t : Token}
    (h : StoppedAt ts failure k t) (hfail : (parseTokens ts).failure = some failure) : ¬ Viable ts := by
  intro hviable
  rw [← List.take_append_drop (k + 1) ts] at hviable
  exact h.not_viable_take hfail hviable.of_append

/-! ## The unfinished declaration -/

theorem Truncated.viable {ts : List Token} {failure : Failure} {ds : List DeclarationPhrase} {t : Token}
    {us : List Token} (h : Truncated ts failure ds t us) : Viable ts := by
  obtain ⟨d, more, hmore⟩ := h.starts
  refine ⟨more, ds ++ [d], ?_⟩
  rw [h.tokens, List.append_assoc, hmore, List.flatMap_append, List.flatMap_singleton]

theorem Truncated.unfinished {ts : List Token} {failure : Failure} {ds : List DeclarationPhrase} {t : Token}
    {us : List Token} (h : Truncated ts failure ds t us) (hfail : (parseTokens ts).failure = some failure) :
    Unfinished (t :: us) where
  nonempty := by simp
  starts := h.starts
  incomplete d hd := by
    have hfile : ts = (ds ++ [d]).flatMap DeclarationPhrase.tokens := by
      rw [h.tokens, List.flatMap_append, List.flatMap_singleton, hd]
    rw [hfile, parseTokens_file] at hfail
    cases hfail

theorem Unfinished.keyword {ts : List Token} (h : Unfinished ts) :
    ∃ t us, ts = t :: us ∧ t.is "sumtype" = true := by
  obtain ⟨d, more, hmore⟩ := h.starts
  cases ts with
  | nil => exact absurd rfl h.nonempty
  | cons t us =>
    rw [List.cons_append, DeclarationPhrase.tokens, List.cons.injEq] at hmore
    exact ⟨t, us, rfl, hmore.1 ▸ d.keyword.property⟩

/-- No declaration is over inside an unfinished one. -/
theorem Unfinished.not_declares {ts w more : List Token} (h : Unfinished ts) (hts : ts = w ++ more) :
    ¬ Declares w more := by
  rintro ⟨d, rfl, hends⟩
  obtain ⟨d', rest, hrest⟩ := h.starts
  cases more with
  | nil => exact h.incomplete d (by rw [hts, List.append_nil])
  | cons t more =>
    -- With the missing tokens, two declarations would start the same list.
    have hwhole : Declares d'.tokens [] := ⟨d', rfl, d'.endsBefore_nil⟩
    have hpart : Declares d.tokens (t :: (more ++ rest)) := ⟨d, rfl, hends.of_head _⟩
    have heq := hwhole.unique hpart (by rw [List.append_nil, ← hrest, hts, List.append_assoc, List.cons_append])
    cases heq.2

theorem Unfinished.split {us : List Token} (h : Unfinished us) (ds : List DeclarationPhrase) :
    Split (ds.flatMap DeclarationPhrase.tokens ++ us) (ds.map DeclarationPhrase.tokens) us := by
  obtain ⟨t, us, rfl, ht⟩ := h.keyword
  induction ds with
  | nil => exact .rest (.inr fun w more hts => h.not_declares hts)
  | cons d ds ih =>
    rw [List.flatMap_cons, List.append_assoc]
    refine .declaration ⟨d, rfl, ?_⟩ ih
    cases ds with
    | nil => exact d.endsBefore_keyword ht us
    | cons d' ds => exact d.endsBefore_keyword d'.keyword.property _

/-! ## The diagnostic -/

/-- A pass that fails leaves one diagnostic, always at a token of the file. If
the tokens are not viable, it is at the first token that makes them so, and
other tokens behind that one give the same result. If they are viable, it is
at the keyword of the one declaration left unfinished. -/
theorem diagnostic_position (ts : List Token) (file : Path) (table : SymbolTable)
    (h : (parseTokens ts).outcome = .failed) :
    ∃ d : Diagnostic, (table.augment file (parseTokens ts)).diagnostics = table.diagnostics ++ [d] ∧
      d.document = file ∧ (∃ t ∈ ts, d.position = t.position) ∧
      (¬ Viable ts → ∃ k t, ts[k]? = some t ∧ ¬ Viable (ts.take (k + 1)) ∧ (∀ j < k, Viable (ts.take (j + 1))) ∧
        d.position = t.position ∧ ∀ us, parseTokens (ts.take (k + 1) ++ us) = parseTokens ts) ∧
      (Viable ts → ∃ whole t us, ts = whole ++ t :: us ∧ IsFile whole ∧ Unfinished (t :: us) ∧
        t.is "sumtype" = true ∧ d.position = t.position ∧
        ∀ whole' us', ts = whole' ++ us' → IsFile whole' → Unfinished us' → us' = t :: us) := by
  obtain ⟨failure, hfail⟩ : ∃ failure, (parseTokens ts).failure = some failure := by
    cases hfail : (parseTokens ts).failure with
    | some failure => exact ⟨failure, rfl⟩
    | none => simp [ParsedFile.outcome, hfail] at h
  refine ⟨⟨failure.flaw.fault.message, file, failure.position⟩, ?_, rfl, ?_⟩
  · rw [SymbolTable.augment_eq, SymbolTable.diagnosticsOf, hfail]
    rfl
  rcases failure_cases hfail with ⟨k, t, hstop⟩ | ⟨ds, t, us, hcut⟩
  · refine ⟨⟨t, List.mem_of_getElem? hstop.token, hstop.position⟩, fun _ => ?_, fun hviable => ?_⟩
    · exact ⟨k, t, hstop.token, hstop.not_viable_take hfail, fun j => hstop.viable_take, hstop.position, hstop.stops⟩
    · exact absurd hviable (hstop.not_viable hfail)
  · have hopen := hcut.unfinished hfail
    obtain ⟨t', us', heq, hkey⟩ := hopen.keyword
    cases heq
    refine ⟨⟨t, by simp [hcut.tokens], hcut.position⟩, fun hnot => absurd hcut.viable hnot, fun _ => ?_⟩
    refine ⟨_, t, us, hcut.tokens, ⟨ds, rfl⟩, hopen, hkey, hcut.position, ?_⟩
    -- Any other such division is a split too, and there is only one.
    rintro _ us' hts ⟨ds', rfl⟩ hopen'
    have hsplit := hopen.split ds
    rw [← hcut.tokens, hts] at hsplit
    exact (hsplit.unique (hopen'.split ds')).2

/-- The tokens of `sumtype A;`, which fail at the semicolon: what stands before it
starts a declaration, and nothing behind it makes up for it. -/
theorem diagnostic_position_semicolon :
    let ts : List Token := [⟨.identifier, "sumtype", ⟨0, 0⟩⟩, ⟨.identifier, "A", ⟨0, 8⟩⟩, ⟨.punctuation, ";", ⟨0, 9⟩⟩]
    (parseTokens ts).outcome = .failed ∧
      ∃ d, (SymbolTable.empty.augment ⟨"a.epoch"⟩ (parseTokens ts)).diagnostics = [d] ∧ d.position = ⟨0, 9⟩ ∧
        Viable (ts.take 2) ∧ ¬ Viable (ts.take 3) ∧ ∀ us, parseTokens (ts.take 3 ++ us) = parseTokens ts := by
  intro ts
  have hfail : (parseTokens ts).outcome = .failed := by decide +kernel
  have hplace : ∀ d ∈ (SymbolTable.empty.augment ⟨"a.epoch"⟩ (parseTokens ts)).diagnostics, d.position = ⟨0, 9⟩ := by
    decide +kernel
  obtain ⟨d, hd, -, -, hstops, hunfinished⟩ := diagnostic_position ts ⟨"a.epoch"⟩ .empty hfail
  have hposition : d.position = ⟨0, 9⟩ := hplace d (by rw [hd]; simp [SymbolTable.empty])
  -- The keyword stands elsewhere, so this is not an unfinished declaration.
  have hnot : ¬ Viable ts := by
    intro hviable
    obtain ⟨whole, t, us, hts, -, -, hkeyword, ht, -⟩ := hunfinished hviable
    have hmem : t ∈ ts := by simp [hts]
    have hthere : ∀ u ∈ ts, u.is "sumtype" = true → u.position ≠ ⟨0, 9⟩ := by decide
    exact hthere t hmem hkeyword (ht.symm.trans hposition)
  obtain ⟨k, t, hget, hrefused, hviable, ht, hsame⟩ := hstops hnot
  obtain rfl : k = 2 := by
    have hthere : ∀ i < 3, ∀ u ∈ ts[i]?, u.position = ⟨0, 9⟩ → i = 2 := by decide
    exact hthere k (List.getElem?_eq_some_iff.1 hget).1 t hget (ht.symm.trans hposition)
  exact ⟨hfail, d, hd, hposition, hviable 1 (by decide), hrefused, hsame⟩

end SourceModel.Grammar
