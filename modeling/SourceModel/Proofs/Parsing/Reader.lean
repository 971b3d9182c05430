import SourceModel.Parsing.SumType
import SourceModel.Proofs.Parsing.Phrase
/-!
# Readers read exactly their phrases

A reader looks at the front of a token list and answers with a value and the
number of tokens it spans, or with an error at an offset. `Exact` says what it
means for a reader to be right about a class of phrases:

* a phrase that ends before the rest is read whole, with its value;
* whatever is read is such a phrase;
* an error stands at the first token that no phrase allows there: the tokens
  before it start a phrase, and the tokens after it make no difference.

Each reader of the library is shown exact from the readers it calls, so none
of the later modules looks at a reader's code again.
-/

namespace SourceModel.Grammar

open Parsing

/-- The error `e` stands where it should: the tokens before its offset start a
phrase, and with the token there nothing that follows mends it. -/
structure Refused {σ α ε : Type} (read : List Token → Except ε α) (offset : ε → Nat)
    (tokens : σ → List Token) (ts : List Token) (e : ε) : Prop where
  starts : ∃ x, ts.take (offset e) <+: tokens x
  stops : offset e < ts.length → ∀ us, read (ts.take (offset e + 1) ++ us) = .error e

structure Exact {σ α ε : Type} (read : List Token → Except ε (α × Nat)) (offset : ε → Nat)
    (tokens : σ → List Token) (meaning : σ → α) (EndsBefore : σ → List Token → Prop) : Prop where
  complete : ∀ x rest, EndsBefore x rest → read (tokens x ++ rest) = .ok (meaning x, (tokens x).length)
  sound : ∀ {ts a n}, read ts = .ok (a, n) →
    ∃ x rest, ts = tokens x ++ rest ∧ EndsBefore x rest ∧ meaning x = a ∧ (tokens x).length = n
  refused : ∀ {ts e}, read ts = .error e → Refused read offset tokens ts e

/-- An error of a reader that another one calls behind `before` is refused by
the caller too, that much further on. -/
theorem Refused.after {σ τ α β ε ε' : Type} {inner : List Token → Except ε α} {outer : List Token → Except ε' β}
    {offset : ε → Nat} {offset' : ε' → Nat} {tokens : σ → List Token} {tokens' : τ → List Token}
    {ts : List Token} {e : ε} {e' : ε'} (h : Refused inner offset tokens ts e) (before : List Token)
    (hoffset : offset' e' = before.length + offset e) (htokens : ∀ x, ∃ y, before ++ tokens x <+: tokens' y)
    (houter : ∀ us, inner us = .error e → outer (before ++ us) = .error e') :
    Refused outer offset' tokens' (before ++ ts) e' where
  starts := by
    obtain ⟨x, hx⟩ := h.starts
    obtain ⟨y, hy⟩ := htokens x
    rw [hoffset, List.take_length_add_append]
    exact ⟨y, ((List.prefix_append_right_inj before).2 hx).trans hy⟩
  stops hlt us := by
    rw [hoffset, List.length_append] at hlt
    rw [hoffset, Nat.add_assoc, List.take_length_add_append, List.append_assoc]
    exact houter _ (h.stops (by omega) us)

/-! ## Template lists -/

section Scan
variable {α : Type} {width : Nat} {write : α → List Token}

/-- Tokens that reach past the width of an element start with one. -/
theorem exists_element (hs : ∀ ts, ts.length = width → ∃ x, write x = ts) {t : Token} {ts us : List Token}
    (h : ts.drop width = t :: us) : ∃ x, ts = write x ++ t :: us := by
  have hlt : width < ts.length := by
    have := congrArg List.length h
    simp only [List.length_drop, List.length_cons] at this
    omega
  obtain ⟨x, hx⟩ := hs (ts.take width) (by simp only [List.length_take]; omega)
  exact ⟨x, by rw [hx, ← h, List.take_append_drop]⟩

/-- The scan finds the end of a well-formed list. -/
theorem run_closed (hw : ∀ x, (write x).length = width) (xs : Separated "," α) (closing : Word ">")
    (rest : List Token) (start : Nat) :
    TemplateScan.run width (start + width) ((xs.tokens write ++ closing.val :: rest).drop width) =
      .closed (start + (xs.tokens write).length + 1) := by
  induction xs generalizing start with
  | last x =>
    simp only [Separated.tokens, List.drop_left' (hw x), hw]
    rw [TemplateScan.run, if_pos closing.property]
  | more x comma others ih =>
    -- A comma is not a closing bracket, so the scan goes on behind it.
    have hcomma := comma.property
    simp only [Separated.tokens, List.append_assoc, List.cons_append, List.drop_left' (hw x)]
    rw [TemplateScan.run, if_neg (by simp [is_false_of_is hcomma (b := ">")]), if_pos hcomma,
      show start + width + 1 + width = (start + (width + 1)) + width by omega, ih]
    simp only [List.length_append, List.length_cons, hw]
    congr 1
    omega

/-- Where the scan finds an end, a well-formed list ends. -/
theorem closed_run (hw : ∀ x, (write x).length = width) (hs : ∀ ts, ts.length = width → ∃ x, write x = ts)
    {ts : List Token} {start stop : Nat}
    (h : TemplateScan.run width (start + width) (ts.drop width) = .closed stop) :
    ∃ (xs : Separated "," α) (closing : Word ">") (rest : List Token),
      ts = xs.tokens write ++ closing.val :: rest ∧ stop = start + (xs.tokens write).length + 1 := by
  induction hn : ts.length using Nat.strongRecOn generalizing ts start with
  | ind n ih =>
    cases hd : ts.drop width with
    | nil => rw [hd, TemplateScan.run] at h; cases h
    | cons t us =>
      obtain ⟨x, hts⟩ := exists_element hs hd
      have hlen : us.length < ts.length := by
        rw [hts, List.length_append, List.length_cons]
        omega
      -- The token behind the element closes the list, separates or breaks it.
      rw [hd, TemplateScan.run] at h
      split at h
      · cases h
        exact ⟨.last x, ⟨t, ‹_›⟩, us, hts, by simp only [Separated.tokens, hw]⟩
      · split at h
        · rw [show start + width + 1 + width = (start + (width + 1)) + width by omega] at h
          obtain ⟨xs, closing, rest, rfl, rfl⟩ := ih us.length (by omega) h rfl
          refine ⟨.more x ⟨t, ‹_›⟩ xs, closing, rest, ?_, ?_⟩
          · simp only [hts, Separated.tokens, List.append_assoc, List.cons_append]
          · simp only [Separated.tokens, List.length_append, List.length_cons, hw]
            omega
        · cases h

/-- Where the scan breaks, the tokens before start a list, and the tokens after
do not matter. -/
theorem broken_run (hw : ∀ x, (write x).length = width) (hs : ∀ ts, ts.length = width → ∃ x, write x = ts)
    {ts : List Token} {start stop : Nat}
    (h : TemplateScan.run width (start + width) (ts.drop width) = .broken stop) :
    ∃ k, stop = start + k ∧ (∃ xs : Separated "," α, ts.take k <+: xs.tokens write) ∧
      (k < ts.length → ∀ us,
        TemplateScan.run width (start + width) ((ts.take (k + 1) ++ us).drop width) = .broken stop) := by
  induction hn : ts.length using Nat.strongRecOn generalizing ts start with
  | ind n ih =>
    cases hd : ts.drop width with
    | nil =>
      -- The tokens end inside an element or right after one, which any tokens complete.
      rw [hd, TemplateScan.run] at h
      cases h
      have hle : ts.length ≤ width := List.drop_eq_nil_iff.1 hd
      obtain ⟨x, hx⟩ := hs (ts ++ List.replicate (width - ts.length) default) (by
        simp only [List.length_append, List.length_replicate]; omega)
      refine ⟨width, rfl, ⟨.last x, ?_⟩, fun hlt => by omega⟩
      rw [List.take_of_length_le hle, Separated.tokens, hx]
      exact List.prefix_append ..
    | cons t us =>
      obtain ⟨x, hts⟩ := exists_element hs hd
      have hlen : us.length < ts.length := by
        rw [hts, List.length_append, List.length_cons]
        omega
      have htake : ∀ k, ts.take (width + k) = write x ++ (t :: us).take k := by
        intro k
        rw [hts, ← hw x, List.take_length_add_append]
      rw [hd, TemplateScan.run] at h
      split at h
      · cases h
      · rename_i hclose
        split at h
        · rename_i hcomma
          rw [show start + width + 1 + width = (start + (width + 1)) + width by omega] at h
          obtain ⟨k, rfl, ⟨xs, hxs⟩, hrun⟩ := ih us.length (by omega) h rfl
          refine ⟨width + (k + 1), by omega, ⟨.more x ⟨t, hcomma⟩ xs, ?_⟩, fun hlt vs => ?_⟩
          · rw [htake, Separated.tokens]
            simpa using hxs
          · rw [show width + (k + 1) + 1 = width + (k + 2) by omega, htake, List.append_assoc,
              List.drop_left' (hw x), List.take_succ_cons, List.cons_append, TemplateScan.run, if_neg hclose,
              if_pos hcomma, show start + width + 1 + width = (start + (width + 1)) + width by omega]
            refine hrun ?_ vs
            rw [hts, List.length_append, List.length_cons, hw] at hn
            omega
        · rename_i hcomma
          cases h
          refine ⟨width, rfl, ⟨.last x, ?_⟩, fun _ vs => ?_⟩
          · simp [hts, Separated.tokens, List.take_left' (hw x)]
          · rw [htake, List.append_assoc, List.drop_left' (hw x), List.take_succ_cons, List.cons_append,
              TemplateScan.run, if_neg hclose, if_neg hcomma]

/-- Template lists are read exactly, whatever is made of their elements. -/
theorem templateList_exact {β : Type} {elements : List Token → List β} {meaning : α → β}
    (hw : ∀ x, (write x).length = width) (hs : ∀ ts, ts.length = width → ∃ x, write x = ts)
    (he : ∀ xs : Separated "," α, elements (xs.tokens write) = xs.toList.map meaning) :
    Exact (templateList width elements) id (TemplatePhrase.tokens write) (fun l => l.elements.map meaning)
      TemplatePhrase.EndsBefore where
  complete l rest hrest := by
    cases l with
    | absent =>
      cases rest with
      | nil => rfl
      | cons t rest =>
        have hne : ¬ t.is "<" = true := by simpa [TemplatePhrase.EndsBefore] using hrest
        simp only [TemplatePhrase.tokens, List.nil_append, templateList, if_neg hne]
        rfl
    | list opening xs closing =>
      have hrun := run_closed hw xs closing rest 0
      simp only [Nat.zero_add] at hrun
      simp only [TemplatePhrase.tokens, TemplatePhrase.elements, List.cons_append, List.append_assoc,
        List.nil_append, templateList, if_pos opening.property, hrun, Nat.add_sub_cancel, List.take_left,
        he, List.length_cons, List.length_append, List.length_nil]
  sound {ts a n} h := by
    cases ts with
    | nil => cases h; exact ⟨.absent, [], rfl, rfl, rfl, rfl⟩
    | cons t inner =>
      rw [templateList] at h
      split at h
      · rename_i hopen
        split at h
        · rename_i stop hrun
          cases h
          have hclosed : TemplateScan.run width (0 + width) (inner.drop width) = .closed stop := by
            rw [Nat.zero_add, hrun]
          obtain ⟨xs, closing, rest, rfl, rfl⟩ := closed_run hw hs hclosed
          refine ⟨.list ⟨t, hopen⟩ xs closing, rest, ?_, trivial, ?_, ?_⟩
          · simp [TemplatePhrase.tokens]
          · simp [TemplatePhrase.elements, he]
          · simp [TemplatePhrase.tokens]
        · cases h
      · rename_i hopen
        cases h
        exact ⟨.absent, t :: inner, rfl, by simpa [TemplatePhrase.EndsBefore] using hopen, rfl, rfl⟩
  refused {ts k} h := by
    cases ts with
    | nil => cases h
    | cons t inner =>
      rw [templateList] at h
      split at h
      · rename_i hopen
        split at h
        · cases h
        · rename_i stop hrun
          cases h
          have hbroken : TemplateScan.run width (0 + width) (inner.drop width) = .broken stop := by
            rw [Nat.zero_add, hrun]
          obtain ⟨k, rfl, ⟨xs, hxs⟩, hstop⟩ := broken_run hw hs hbroken
          simp only [Nat.zero_add] at hstop ⊢
          refine ⟨⟨.list ⟨t, hopen⟩ xs default, ?_⟩, fun hlt us => ?_⟩
          · rw [id, List.take_succ_cons, TemplatePhrase.tokens]
            exact (List.prefix_cons_inj t).2 (hxs.trans (List.prefix_append ..))
          · simp only [id, List.length_cons] at hlt
            rw [id, List.take_succ_cons, List.cons_append, templateList, if_pos hopen, hstop (by omega) us]
      · cases h

end Scan

theorem parameters_tokens (xs : Separated "," (Token × Token)) :
    parameters (xs.tokens parameterTokens) = xs.toList.map parameterMeaning := by
  induction xs with
  | last p => rfl
  | more p comma others ih =>
    simp [Separated.tokens, Separated.toList, parameterTokens, parameters, ih, parameterMeaning]

theorem arguments_tokens (xs : Separated "," Token) :
    arguments (xs.tokens argumentTokens) = xs.toList.map (·.text) := by
  induction xs with
  | last t => rfl
  | more t comma others ih => simp [Separated.tokens, Separated.toList, argumentTokens, arguments, ih]

theorem parameterList_exact :
    Exact (templateList 2 parameters) id (TemplatePhrase.tokens parameterTokens)
      (fun l => l.elements.map parameterMeaning) TemplatePhrase.EndsBefore := by
  refine templateList_exact (fun _ => rfl) (fun ts h => ?_) parameters_tokens
  match ts, h with
  | [a, b], _ => exact ⟨(a, b), rfl⟩

theorem argumentList_exact :
    Exact (templateList 1 arguments) id (TemplatePhrase.tokens argumentTokens)
      (fun l => l.elements.map (·.text)) TemplatePhrase.EndsBefore := by
  refine templateList_exact (fun _ => rfl) (fun ts h => ?_) arguments_tokens
  match ts, h with
  | [t], _ => exact ⟨t, rfl⟩

/-! ## Alternatives -/

theorem alternative_exact :
    Exact alternative Flaw.offset AlternativePhrase.tokens AlternativePhrase.meaning AlternativePhrase.EndsBefore where
  complete a rest hrest := by
    rw [AlternativePhrase.tokens, List.cons_append, alternative, if_pos a.name.property,
      argumentList_exact.complete a.arguments rest hrest]
    rfl
  sound {ts alt n} h := by
    cases ts with
    | nil => cases h
    | cons t rest =>
      rw [alternative] at h
      split at h
      · rename_i hname
        split at h
        · rename_i args n hargs
          cases h
          obtain ⟨l, rest, rfl, hends, rfl, rfl⟩ := argumentList_exact.sound hargs
          exact ⟨⟨⟨t, hname⟩, l⟩, rest, rfl, hends, rfl, rfl⟩
        · cases h
      · cases h
  refused {ts flaw} h := by
    cases ts with
    | nil => cases h; exact ⟨⟨⟨default, .absent⟩, List.nil_prefix⟩, fun hlt => by cases hlt⟩
    | cons t rest =>
      rw [alternative] at h
      split at h
      · rename_i hname
        split at h
        · cases h
        · rename_i k hargs
          cases h
          refine (argumentList_exact.refused hargs).after [t] (Nat.add_comm k 1) (fun l => ?_) (fun us hus => ?_)
          · exact ⟨⟨⟨t, hname⟩, l⟩, List.prefix_refl _⟩
          · rw [List.singleton_append, alternative, if_pos hname, hus]
      · rename_i hname
        cases h
        refine ⟨⟨⟨default, .absent⟩, List.nil_prefix⟩, fun _ us => ?_⟩
        rw [List.take_succ_cons, List.cons_append, alternative, if_neg hname]

theorem alternatives_eq (ts : List Token) :
    alternatives ts = match alternative ts with
      | .error flaw => .error flaw
      | .ok (first, n) => match ts.drop n with
        | [] => .ok ([first], n)
        | bar :: rest =>
          if bar.is "|" then
            match alternatives rest with
            | .ok (others, m) => .ok (first :: others, m + (n + 1))
            | .error flaw => .error (flaw.shift (n + 1))
          else .ok ([first], n) := by
  rw [alternatives]
  cases alternative ts with
  | error flaw => rfl
  | ok found =>
    obtain ⟨first, n⟩ := found
    dsimp only
    generalize ts.drop n = more
    cases more with
    | nil => rfl
    | cons bar rest => rfl

theorem alternatives_last {a : AlternativePhrase} {rest : List Token} (hends : a.EndsBefore rest)
    (hbar : startsWith "|" rest = false) : alternatives (a.tokens ++ rest) = .ok ([a.meaning], a.tokens.length) := by
  rw [alternatives_eq, alternative_exact.complete a rest hends]
  simp only [List.drop_left]
  cases rest with
  | nil => rfl
  | cons bar rest => rw [startsWith_cons] at hbar; simp [hbar]

theorem alternatives_more (a : AlternativePhrase) (bar : Word "|") (rest : List Token) :
    alternatives (a.tokens ++ bar.val :: rest) = match alternatives rest with
      | .ok (others, m) => .ok (a.meaning :: others, m + (a.tokens.length + 1))
      | .error flaw => .error (flaw.shift (a.tokens.length + 1)) := by
  rw [alternatives_eq, alternative_exact.complete a _ (a.arguments.endsBefore_cons (by decide) bar.property rest)]
  simp only [List.drop_left, if_pos bar.property]

/-- An alternative fails, is the last one, or has a bar after it. -/
theorem alternatives_cases (ts : List Token) :
    (∃ flaw, alternative ts = .error flaw ∧ alternatives ts = .error flaw) ∨
    (∃ a rest, ts = AlternativePhrase.tokens a ++ rest ∧ a.EndsBefore rest ∧ startsWith "|" rest = false) ∨
    ∃ a bar rest, ts = AlternativePhrase.tokens a ++ (bar : Word "|").val :: rest := by
  cases h : alternative ts with
  | error flaw => exact .inl ⟨flaw, rfl, by rw [alternatives_eq, h]⟩
  | ok found =>
    obtain ⟨a, rest, rfl, hends, -, -⟩ := alternative_exact.sound h
    cases rest with
    | nil => exact .inr (.inl ⟨a, [], rfl, hends, rfl⟩)
    | cons bar rest =>
      by_cases hbar : bar.is "|" = true
      · exact .inr (.inr ⟨a, ⟨bar, hbar⟩, rest, rfl⟩)
      · exact .inr (.inl ⟨a, bar :: rest, rfl, hends, by simpa using hbar⟩)

theorem alternatives_exact :
    Exact alternatives Flaw.offset (Separated.tokens AlternativePhrase.tokens)
      (fun as => as.toList.map AlternativePhrase.meaning)
      (fun (as : Separated "|" AlternativePhrase) rest => startsWith "|" rest = false ∧ as.final.EndsBefore rest) where
  complete as rest h := by
    induction as with
    | last a => exact alternatives_last h.2 h.1
    | more a bar others ih =>
      simp only [Separated.tokens, List.append_assoc, List.cons_append]
      rw [alternatives_more, ih h]
      simp only [Separated.toList, List.map_cons, List.length_append, List.length_cons]
      congr 2
      omega
  sound {ts alts n} h := by
    induction hn : ts.length using Nat.strongRecOn generalizing ts alts n with
    | ind len ih =>
      rcases alternatives_cases ts with ⟨flaw, -, herr⟩ | ⟨a, rest, rfl, hends, hbar⟩ | ⟨a, bar, rest, rfl⟩
      · rw [herr] at h; cases h
      · rw [alternatives_last hends hbar] at h
        cases h
        exact ⟨.last a, rest, rfl, ⟨hbar, hends⟩, rfl, rfl⟩
      · rw [alternatives_more] at h
        split at h
        · rename_i others m hothers
          cases h
          simp only [List.length_append, List.length_cons] at hn
          obtain ⟨as, rest, rfl, hends, rfl, rfl⟩ := ih rest.length (by omega) hothers rfl
          refine ⟨.more a bar as, rest, ?_, hends, rfl, ?_⟩
          · simp [Separated.tokens]
          · simp only [Separated.tokens, List.length_append, List.length_cons]
            omega
        · cases h
  refused {ts flaw} h := by
    induction hn : ts.length using Nat.strongRecOn generalizing ts flaw with
    | ind len ih =>
      rcases alternatives_cases ts with ⟨flaw', hfirst, herr⟩ | ⟨a, rest, rfl, hends, hbar⟩ | ⟨a, bar, rest, rfl⟩
      · rw [herr] at h
        cases h
        refine (alternative_exact.refused hfirst).after [] (Nat.zero_add _).symm (fun a => ?_) (fun us hus => ?_)
        · exact ⟨.last a, List.prefix_refl _⟩
        · rw [List.nil_append, alternatives_eq, hus]
      · rw [alternatives_last hends hbar] at h
        cases h
      · rw [alternatives_more] at h
        split at h
        · cases h
        · rename_i flaw' hothers
          cases h
          simp only [List.length_append, List.length_cons] at hn
          -- The flaw lies behind this alternative and its bar.
          have hrest := ih rest.length (by omega) hothers rfl
          rw [List.append_cons]
          refine hrest.after (a.tokens ++ [bar.val]) ?_ (fun as => ⟨.more a bar as, ?_⟩) (fun us hus => ?_)
          · rw [Flaw.shift, List.length_append, List.length_singleton, Nat.add_comm]
          · simp [Separated.tokens]
          · rw [← List.append_cons, alternatives_more, hus]

/-! ## The declaration -/

theorem sumTypeBody_equals (name : Identifier) (l : TemplatePhrase (Token × Token)) (equals : Word "=")
    (rest : List Token) :
    sumTypeBody (name.val :: (l.tokens parameterTokens ++ equals.val :: rest)) = match alternatives rest with
      | .ok (alts, m) =>
        .ok (⟨name.val.text, l.elements.map parameterMeaning, alts⟩, m + ((l.tokens parameterTokens).length + 2))
      | .error flaw => .error (flaw.shift ((l.tokens parameterTokens).length + 2)) := by
  rw [sumTypeBody, if_pos name.property,
    parameterList_exact.complete l _ (l.endsBefore_cons (by decide) equals.property rest)]
  cases hfound : alternatives rest with
  | error flaw => simp [equals.property, hfound]
  | ok found => simp [equals.property, hfound]

theorem sumTypeBody_missingEquals (name : Identifier) {l : TemplatePhrase (Token × Token)} {rest : List Token}
    (hends : l.EndsBefore rest) (heq : startsWith "=" rest = false) :
    sumTypeBody (name.val :: (l.tokens parameterTokens ++ rest)) =
      .error ⟨.missingEquals, (l.tokens parameterTokens).length + 1⟩ := by
  rw [sumTypeBody, if_pos name.property, parameterList_exact.complete l _ hends]
  simp only [List.drop_left]
  cases rest with
  | nil => rfl
  | cons equals rest => rw [startsWith_cons] at heq; simp [heq]

/-- After a name, a parameter list breaks, or ends without an equals sign or
with one. -/
theorem parameterList_cases (ts : List Token) :
    (∃ k, templateList 2 parameters ts = .error k) ∨
    (∃ l rest, ts = TemplatePhrase.tokens parameterTokens l ++ rest ∧ l.EndsBefore rest ∧
      startsWith "=" rest = false) ∨
    ∃ l equals rest, ts = TemplatePhrase.tokens parameterTokens l ++ (equals : Word "=").val :: rest := by
  cases h : templateList 2 parameters ts with
  | error k => exact .inl ⟨k, rfl⟩
  | ok found =>
    obtain ⟨l, rest, rfl, hends, -, -⟩ := parameterList_exact.sound h
    cases rest with
    | nil => exact .inr (.inl ⟨l, [], rfl, hends, rfl⟩)
    | cons equals rest =>
      by_cases hequals : equals.is "=" = true
      · exact .inr (.inr ⟨l, ⟨equals, hequals⟩, rest, rfl⟩)
      · exact .inr (.inl ⟨l, equals :: rest, rfl, hends, by simpa using hequals⟩)

theorem sumTypeBody_exact :
    Exact sumTypeBody Flaw.offset DeclarationPhrase.body DeclarationPhrase.meaning DeclarationPhrase.EndsBefore where
  complete d rest h := by
    rw [DeclarationPhrase.body, List.cons_append, List.append_assoc, List.cons_append, sumTypeBody_equals,
      alternatives_exact.complete d.alternatives rest h]
    simp only [List.length_cons, List.length_append]
    congr 2
    omega
  sound {ts type n} h := by
    cases ts with
    | nil => cases h
    | cons name rest =>
      by_cases hname : name.isIdentifier = true
      · rcases parameterList_cases rest with ⟨k, hk⟩ | ⟨l, rest, rfl, hends, heq⟩ | ⟨l, equals, rest, rfl⟩
        · rw [sumTypeBody, if_pos hname, hk] at h
          cases h
        · rw [sumTypeBody_missingEquals ⟨name, hname⟩ hends heq] at h
          cases h
        · rw [sumTypeBody_equals ⟨name, hname⟩] at h
          split at h
          · rename_i alts m halts
            obtain ⟨as, rest, rfl, hends, rfl, rfl⟩ := alternatives_exact.sound halts
            cases h
            refine ⟨⟨default, ⟨name, hname⟩, l, equals, as⟩, rest, ?_, hends, rfl, ?_⟩
            · simp [DeclarationPhrase.body]
            · simp only [DeclarationPhrase.body, List.length_cons, List.length_append]
              omega
          · cases h
      · rw [sumTypeBody, if_neg hname] at h
        cases h
  refused {ts flaw} h := by
    cases ts with
    | nil => cases h; exact ⟨⟨default, List.nil_prefix⟩, fun hlt => by cases hlt⟩
    | cons name rest =>
      by_cases hname : name.isIdentifier = true
      · rcases parameterList_cases rest with ⟨k, hk⟩ | ⟨l, rest, rfl, hends, heq⟩ | ⟨l, equals, rest, rfl⟩
        · rw [sumTypeBody, if_pos hname, hk] at h
          cases h
          refine (parameterList_exact.refused hk).after [name] (Nat.add_comm k 1) (fun l => ?_) (fun us hus => ?_)
          · refine ⟨⟨default, ⟨name, hname⟩, l, default, .last default⟩, ?_⟩
            exact (List.prefix_cons_inj name).2 (List.prefix_append ..)
          · rw [List.singleton_append, sumTypeBody, if_pos hname, hus]
        · -- The token in the place of the equals sign ends the list by itself.
          rw [sumTypeBody_missingEquals ⟨name, hname⟩ hends heq] at h
          cases h
          refine ⟨⟨⟨default, ⟨name, hname⟩, l, default, .last default⟩, ?_⟩, fun hlt us => ?_⟩
          · rw [List.take_succ_cons, List.take_left]
            exact (List.prefix_cons_inj name).2 (List.prefix_append ..)
          · cases rest with
            | nil => simp at hlt
            | cons t rest =>
              rw [List.take_succ_cons, List.take_length_add_append, List.cons_append, List.append_assoc]
              exact sumTypeBody_missingEquals ⟨name, hname⟩ (hends.of_head us) heq
        · rw [sumTypeBody_equals ⟨name, hname⟩] at h
          split at h
          · cases h
          · rename_i flaw' halts
            cases h
            rw [List.append_cons, ← List.cons_append]
            refine (alternatives_exact.refused halts).after (name :: (l.tokens parameterTokens ++ [equals.val])) ?_
              (fun as => ⟨⟨default, ⟨name, hname⟩, l, equals, as⟩, ?_⟩) (fun us hus => ?_)
            · simp only [Flaw.shift, List.length_append, List.length_cons, List.length_nil]
              omega
            · simp [DeclarationPhrase.body]
            · rw [List.cons_append, ← List.append_cons, sumTypeBody_equals ⟨name, hname⟩, hus]
      · rw [sumTypeBody, if_neg hname] at h
        cases h
        refine ⟨⟨default, List.nil_prefix⟩, fun _ us => ?_⟩
        rw [List.take_succ_cons, List.cons_append, sumTypeBody, if_neg hname]

/-! ## Attempts at a declaration -/

theorem sumType_phrase {d : DeclarationPhrase} {rest : List Token} (h : d.EndsBefore rest) :
    sumType (d.tokens ++ rest) = .matched d.meaning d.tokens.length := by
  have hkey : d.keyword.val.is keyword = true := d.keyword.property
  rw [DeclarationPhrase.tokens, List.cons_append, sumType, if_pos hkey, sumTypeBody_exact.complete d rest h]
  rfl

theorem phrase_of_matched {ts : List Token} {type : SumType} {n : Nat} (h : sumType ts = .matched type n) :
    ∃ d rest, ts = DeclarationPhrase.tokens d ++ rest ∧ d.EndsBefore rest := by
  cases ts with
  | nil => cases h
  | cons t rest =>
    rw [sumType] at h
    split at h
    · rename_i hkey
      split at h
      · rename_i hbody
        obtain ⟨d, more, rfl, hends, -, -⟩ := sumTypeBody_exact.sound hbody
        exact ⟨{ d with keyword := ⟨t, hkey⟩ }, more, rfl, hends⟩
      · cases h
    · cases h

/-- A malformed declaration starts with the keyword and is refused further on. -/
theorem refused_of_malformed {t : Token} {ts : List Token} {flaw : Flaw} (h : sumType (t :: ts) = .malformed flaw) :
    ∃ k, flaw.offset = k + 1 ∧ t.is "sumtype" = true ∧
      (∃ d, (t :: ts).take (k + 1) <+: DeclarationPhrase.tokens d) ∧
      (k < ts.length → ∀ us, sumType (t :: (ts.take (k + 1) ++ us)) = .malformed flaw) := by
  rw [sumType] at h
  split at h
  · rename_i hkey
    split at h
    · cases h
    · rename_i flaw' hbody
      cases h
      obtain ⟨⟨d, hd⟩, hstop⟩ := sumTypeBody_exact.refused hbody
      refine ⟨flaw'.offset, rfl, hkey, ⟨{ d with keyword := ⟨t, hkey⟩ }, ?_⟩, fun hlt us => ?_⟩
      · exact (List.prefix_cons_inj t).2 hd
      · rw [sumType, if_pos hkey, hstop hlt us]
  · cases h

end SourceModel.Grammar
