import SourceModel.Proofs.Lexical.Partition
/-!
# Lexemes and the trivia between them

A text laid out as lexemes with trivia around them has those lexemes as its
tokens. Every rule stops at the blank that a separator starts with: a longer
match would hold that blank, and of the rules for lexemes only string literals
have blanks, whose closing quote comes first. Trivia is skipped whole,
whatever a comment has in it. So printing lexemes and reading them back gives
the same lexemes.
-/

namespace SourceModel.Lexical

/-! ## What a layout is made of -/

/-- A text that a rule for tokens of this kind accepts. -/
def Lexeme (kind : TokenKind) (text : String) : Prop :=
  ∃ rule : Rule, rule.pieceKind = .token kind ∧ rule.Accepts text.toList

/-- A text that is a token of some kind. -/
def IsLexeme (text : String) : Prop :=
  ∃ kind, Lexeme kind text

/-- Blanks, line comments with the line feed that ends them, and closed block
comments. -/
inductive Trivia : List Char → Prop
  | nil : Trivia []
  | blank {c : Char} {s : List Char} : isBlank c → Trivia s → Trivia (c :: s)
  | lineComment {body s : List Char} : '\n' ∉ body → Trivia s → Trivia ('/' :: '/' :: (body ++ '\n' :: s))
  | blockComment {body s : List Char} : ¬ ['*', '/'] <:+: body → Trivia s →
      Trivia ('/' :: '*' :: (body ++ '*' :: '/' :: s))

/-- A blank and any trivia after it. -/
inductive Separator : List Char → Prop
  | mk {c : Char} {s : List Char} : isBlank c → Trivia s → Separator (c :: s)

/-- Words one after the other with separators between them. One may come after
the last word too. -/
inductive Spaced : List String → List Char → Prop
  | nil : Spaced [] []
  | last (w : String) : Spaced [w] w.toList
  | cons {w : String} {ws : List String} {gap s : List Char} : Separator gap → Spaced ws s →
      Spaced (w :: ws) (w.toList ++ (gap ++ s))

/-- A text of these words, which may start with trivia. -/
def Layout (ws : List String) (s : List Char) : Prop :=
  ∃ leading body, Trivia leading ∧ Spaced ws body ∧ s = leading ++ body

/-- Nothing, or a text that starts with a blank. -/
def Stops : List Char → Prop
  | [] => True
  | c :: _ => isBlank c = true

/-! ## Where a match ends -/

/-- A word and a longer one start alike, so they belong to one rule, unless the
first is a slash and what follows makes a comment of it. -/
theorem eq_of_accepts_append {rule rule' : Rule} {w u : List Char} {c : Char} (h : rule.Accepts w)
    (h' : rule'.Accepts (w ++ c :: u)) (hc : w = ['/'] → c ≠ '/' ∧ c ≠ '*') : rule' = rule := by
  have hstart : Rule.ofStart (w ++ c :: u) = Rule.ofStart w := by
    rcases w with _ | ⟨d, w⟩
    · exact absurd rfl (Rule.ne_nil_of_accepts h)
    · by_cases hd : d = '/'
      · subst hd
        rcases w with _ | ⟨e, w⟩
        · rw [List.singleton_append, Rule.ofStart_slash (hc rfl).1 (hc rfl).2]
          rfl
        · by_cases hslash : e = '/'
          · subst hslash; rfl
          · by_cases hstar : e = '*'
            · subst hstar; rfl
            · rw [List.cons_append, List.cons_append, Rule.ofStart_slash hslash hstar, Rule.ofStart_slash hslash hstar]
      · rw [List.cons_append, Rule.ofStart_cons hd, Rule.ofStart_cons hd]
  rw [Rule.ofStart_eq h, Rule.ofStart_eq h'] at hstart
  exact Option.some.inj hstart

/-- A word of a rule is the longest match when its rule accepts nothing longer. -/
theorem longestMatch_append {rule : Rule} {w rest : List Char} (h : rule.Accepts w)
    (hmore : ∀ c u, c :: u <+: rest → (w = ['/'] → c ≠ '/' ∧ c ≠ '*') ∧ ¬ rule.Accepts (w ++ c :: u)) :
    LongestMatch (w ++ rest) rule w := by
  refine ⟨List.prefix_append _ _, h, ?_⟩
  intro rule' w' hprefix haccepts
  -- Anything longer has the word in front, so it belongs to the same rule.
  by_contra hlt
  obtain ⟨v, rfl⟩ := List.prefix_of_prefix_length_le (List.prefix_append w rest) hprefix (by omega)
  cases v with
  | nil => simp at hlt
  | cons c u =>
    obtain ⟨hslash, hnot⟩ := hmore c u ((List.prefix_append_right_inj w).1 hprefix)
    obtain rfl := eq_of_accepts_append h haccepts hslash
    exact hnot haccepts

theorem longestMatch_blanks {w rest : List Char} (h : Rule.blanks.Accepts w)
    (hrest : ∀ c ∈ rest.head?, isBlank c = false) : LongestMatch (w ++ rest) .blanks w := by
  refine longestMatch_append h fun c u hcu => ⟨?_, fun hlong => ?_⟩
  · rintro rfl
    exact absurd (h.2 '/' (by simp)) (by decide)
  · obtain ⟨more, rfl⟩ := hcu
    have hblank := hlong.2 c (by simp)
    rw [hrest c (by simp)] at hblank
    cases hblank

/-- A line comment ends before the line feed. -/
theorem longestMatch_lineComment {body : List Char} (h : '\n' ∉ body) (rest : List Char) :
    LongestMatch ('/' :: '/' :: body ++ '\n' :: rest) .lineComment ('/' :: '/' :: body) := by
  refine longestMatch_append ⟨body, rfl, h⟩ fun c u hcu => ⟨by simp, ?_⟩
  rintro ⟨body', heq, hbody'⟩
  obtain ⟨rfl, -⟩ := List.cons_prefix_cons.1 hcu
  simp only [List.cons_append, List.cons.injEq, true_and] at heq
  exact hbody' (by simp [← heq])

theorem longestMatch_commentOpening (rest : List Char) :
    LongestMatch (['/', '*'] ++ rest) .commentOpening ['/', '*'] := by
  refine longestMatch_append rfl fun c u _ => ⟨by simp, fun hlong => ?_⟩
  cases hlong

/-- Of the lexemes, only string literals have blanks. -/
theorem isBlank_of_mem {rule : Rule} {w : List Char} (h : rule.Accepts w) {c : Char} (hc : c ∈ w)
    (hrule : rule = .identifier ∨ rule = .number ∨ rule = .punctuation) : isBlank c = false := by
  rcases hrule with rfl | rfl | rfl
  · obtain ⟨d, body, rfl, hd, hbody⟩ := h
    rcases List.mem_cons.1 hc with rfl | hc
    · exact isBlank_of_class (by decide) hd
    · exact isBlank_of_class (by decide) (hbody c hc)
  · rcases h with ⟨digits, rfl, -, hd⟩ | ⟨-, hd⟩ | ⟨whole, fraction, rfl, -, -, hw, hf⟩
    · simp only [List.mem_cons] at hc
      rcases hc with rfl | rfl | hc
      · decide
      · decide
      · exact isBlank_of_class (by decide) (hd c hc)
    · exact isBlank_of_class (by decide) (hd c hc)
    · rw [List.mem_append, List.mem_cons] at hc
      rcases hc with hc | rfl | hc
      · exact isBlank_of_class (by decide) (hw c hc)
      · decide
      · exact isBlank_of_class (by decide) (hf c hc)
  · have hsingle : singlePunctuation.all (fun c => isBlank c = false) = true := by decide
    have hdouble : doublePunctuation.all (fun p => isBlank p.1 = false ∧ isBlank p.2 = false) = true := by decide
    rcases h with ⟨d, rfl, hd⟩ | ⟨d, e, rfl, hde⟩
    · rw [List.mem_singleton.1 hc]
      exact of_decide_eq_true (List.all_eq_true.1 hsingle d hd)
    · have hblank := of_decide_eq_true (List.all_eq_true.1 hdouble (d, e) hde)
      rw [List.mem_cons, List.mem_singleton] at hc
      rcases hc with rfl | rfl
      · exact hblank.1
      · exact hblank.2

/-- Two literals at the front of a text close at the same quote. -/
theorem eq_nil_of_stringLiteral {w u : List Char} (h : Rule.stringLiteral.Accepts w)
    (h' : Rule.stringLiteral.Accepts (w ++ u)) : u = [] := by
  obtain ⟨body, rfl, hbody⟩ := h
  obtain ⟨body', heq, hbody'⟩ := h'
  simp only [List.cons_append, List.append_assoc, List.nil_append, List.cons.injEq, true_and] at heq
  have hlen := Rule.quotedLength_append hbody ('"' :: u)
  rw [heq, Rule.quotedLength_append hbody', Rule.quotedLength, Rule.quotedLength] at hlen
  have hlong := congrArg List.length heq
  simp only [List.length_append, List.length_cons, List.length_nil] at hlong
  exact List.eq_nil_of_length_eq_zero (by omega)

/-- A word of a rule for tokens ends before a blank. -/
theorem longestMatch_lexeme {rule : Rule} {kind : TokenKind} (hrule : rule.pieceKind = .token kind)
    {w rest : List Char} (h : rule.Accepts w) (hrest : Stops rest) : LongestMatch (w ++ rest) rule w := by
  refine longestMatch_append h fun c u hcu => ?_
  obtain ⟨more, rfl⟩ := hcu
  have hblank : isBlank c = true := hrest
  refine ⟨fun _ => ⟨?_, ?_⟩, fun hlong => ?_⟩
  · rintro rfl
    exact absurd hblank (by decide)
  · rintro rfl
    exact absurd hblank (by decide)
  · have hmem : c ∈ w ++ c :: u := by simp
    cases rule with
    | identifier => exact absurd hblank (by simp [isBlank_of_mem hlong hmem])
    | number => exact absurd hblank (by simp [isBlank_of_mem hlong hmem])
    | punctuation => exact absurd hblank (by simp [isBlank_of_mem hlong hmem])
    | stringLiteral => cases eq_nil_of_stringLiteral h hlong
    | blanks => cases hrule
    | lineComment => cases hrule
    | commentOpening => cases hrule

/-! ## Skipping trivia -/

/-- The kinds and texts of the tokens of a text, wherever it stands. -/
def lexemes (s : List Char) : List (TokenKind × String) :=
  (tokensFrom .start s).map fun t => (t.kind, t.text)

theorem lexemes_toList (source : String) :
    lexemes source.toList = (tokenize source).map fun t => (t.kind, t.text) := by
  rw [lexemes, tokenize_eq]

theorem lexemes_nil : lexemes [] = [] := by
  rw [lexemes, tokensFrom_nil, List.map_nil]

theorem lexemes_cut {w more : List Char} {kind : PieceKind} (h : Cut (w ++ more) w kind) :
    lexemes (w ++ more) = (tokenOf (w, kind)).toList ++ lexemes more := by
  obtain ⟨pieces, hpieces⟩ := exists_cuts more
  rw [lexemes, lexemes, (Cuts.cons h hpieces).tokens, hpieces.tokens, List.filterMap_cons]
  cases tokenOf (w, kind) <;> rfl

theorem map_tokensFrom (caret : Caret) (s : List Char) :
    (tokensFrom caret s).map (fun t => (t.kind, t.text)) = lexemes s := by
  obtain ⟨pieces, hpieces⟩ := exists_cuts s
  rw [lexemes, hpieces.tokens, hpieces.tokens]

/-- Blanks are skipped all at once. -/
theorem tokensFrom_dropWhile (caret : Caret) (s : List Char) :
    tokensFrom (caret.advance (s.takeWhile isBlank)) (s.dropWhile isBlank) = tokensFrom caret s := by
  by_cases h : s.takeWhile isBlank = []
  · have hs := List.takeWhile_append_dropWhile (p := isBlank) (l := s)
    rw [h, List.nil_append] at hs
    rw [h, hs]
    rfl
  · -- The blanks are one piece, which no blank follows.
    have hall : Rule.blanks.Accepts (s.takeWhile isBlank) := ⟨h, fun c hc => List.mem_takeWhile_imp hc⟩
    have hrest : ∀ c ∈ (s.dropWhile isBlank).head?, isBlank c = false := by
      intro c hc
      have hnot := List.head?_dropWhile_not isBlank s
      rw [Option.mem_def.1 hc] at hnot
      exact hnot
    have hcut := tokensFrom_cut (Cut.accepted (longestMatch_blanks hall hrest) (by decide)) caret
    rw [List.takeWhile_append_dropWhile] at hcut
    rw [hcut]
    rfl

theorem tokensFrom_blank {c : Char} (h : isBlank c = true) (caret : Caret) (s : List Char) :
    tokensFrom caret (c :: s) = tokensFrom (caret.step c) s := by
  rw [← tokensFrom_dropWhile caret (c :: s), ← tokensFrom_dropWhile (caret.step c) s, List.takeWhile_cons_of_pos h,
    List.dropWhile_cons_of_pos h]
  rfl

theorem lexemes_blank {c : Char} (h : isBlank c = true) (s : List Char) : lexemes (c :: s) = lexemes s := by
  rw [lexemes, tokensFrom_blank h, map_tokensFrom]

theorem lexemes_lineComment {body : List Char} (h : '\n' ∉ body) (s : List Char) :
    lexemes ('/' :: '/' :: (body ++ '\n' :: s)) = lexemes s := by
  have hcut := lexemes_cut (Cut.accepted (longestMatch_lineComment h s) (by decide))
  rw [List.cons_append, List.cons_append] at hcut
  rw [hcut, lexemes_blank (by decide)]
  rfl

/-- The end of a comment whose body has none in it is the first end. -/
theorem firstEnd_of_body {body : List Char} (h : ¬ ['*', '/'] <:+: body) (rest : List Char) :
    FirstEnd (body ++ '*' :: '/' :: rest) body rest := by
  induction body with
  | nil => exact firstEnd_nil rest
  | cons c body ih =>
    refine (ih fun hend => h (hend.trans (List.infix_cons (List.infix_refl _)))).cons ?_
    -- An end that starts here has its slash in the body too, because a star comes behind it.
    rintro rest' rfl hslash
    cases body with
    | nil => simp at hslash
    | cons d body =>
      obtain ⟨rfl, -⟩ := List.cons.inj hslash
      exact h ⟨[], body, rfl⟩

theorem lexemes_blockComment {body : List Char} (h : ¬ ['*', '/'] <:+: body) (s : List Char) :
    lexemes ('/' :: '*' :: (body ++ '*' :: '/' :: s)) = lexemes s := by
  have hcut := Cut.comment (longestMatch_commentOpening _) rfl (firstEnd_of_body h s)
  have htext : ['/', '*'] ++ (body ++ '*' :: '/' :: s) = ['/', '*'] ++ body ++ ['*', '/'] ++ s := by simp
  rw [htext] at hcut
  have hskip := lexemes_cut hcut
  rw [← htext] at hskip
  exact hskip

/-- Trivia in front of a text has no tokens. -/
theorem Trivia.lexemes_append {t : List Char} (h : Trivia t) (s : List Char) : lexemes (t ++ s) = lexemes s := by
  induction h with
  | nil => rfl
  | blank hc _ ih => rw [List.cons_append, lexemes_blank hc, ih]
  | lineComment hbody _ ih =>
    rw [List.cons_append, List.cons_append, List.append_assoc, List.cons_append, lexemes_lineComment hbody, ih]
  | blockComment hbody _ ih =>
    rw [List.cons_append, List.cons_append, List.append_assoc, List.cons_append, List.cons_append,
      lexemes_blockComment hbody, ih]

theorem Separator.stops_append {t : List Char} (h : Separator t) (s : List Char) : Stops (t ++ s) := by
  obtain ⟨hc, -⟩ := h
  exact hc

theorem Separator.lexemes_append {t : List Char} (h : Separator t) (s : List Char) :
    lexemes (t ++ s) = lexemes s := by
  obtain ⟨hc, ht⟩ := h
  rw [List.cons_append, lexemes_blank hc, ht.lexemes_append]

/-! ## Laid out texts -/

/-- A lexeme that is followed by a blank, or by nothing, is a token. -/
theorem lexemes_lexeme {kind : TokenKind} {text : String} (h : Lexeme kind text) {rest : List Char}
    (hrest : Stops rest) : lexemes (text.toList ++ rest) = (kind, text) :: lexemes rest := by
  obtain ⟨rule, hkind, haccepts⟩ := h
  have hne : rule ≠ .commentOpening := by
    rintro rfl
    cases hkind
  rw [lexemes_cut (Cut.accepted (longestMatch_lexeme hkind haccepts hrest) hne), hkind]
  simp [tokenOf]

theorem Spaced.lexemes_eq {ls : List (TokenKind × String)} {s : List Char} (h : Spaced (ls.map Prod.snd) s)
    (hls : ∀ l ∈ ls, Lexeme l.1 l.2) : lexemes s = ls := by
  generalize hws : ls.map Prod.snd = ws at h
  induction h generalizing ls with
  | nil => rw [lexemes_nil, List.map_eq_nil_iff.1 hws]
  | last w =>
    obtain ⟨⟨kind, text⟩, rfl, rfl⟩ := List.map_eq_singleton_iff.1 hws
    have hread := lexemes_lexeme (hls (kind, text) (by simp)) (show Stops [] from trivial)
    rwa [List.append_nil, lexemes_nil] at hread
  | cons hgap _ ih =>
    obtain ⟨⟨kind, text⟩, ls, rfl, rfl, rfl⟩ := List.map_eq_cons_iff.1 hws
    rw [lexemes_lexeme (hls (kind, text) (by simp)) (hgap.stops_append _), hgap.lexemes_append,
      ih (fun l hl => hls l (by simp [hl])) rfl]

/-- The tokens of a laid out text are its lexemes. -/
theorem Layout.lexemes_eq {ls : List (TokenKind × String)} {s : List Char} (h : Layout (ls.map Prod.snd) s)
    (hls : ∀ l ∈ ls, Lexeme l.1 l.2) : lexemes s = ls := by
  obtain ⟨leading, body, hleading, hbody, rfl⟩ := h
  rw [hleading.lexemes_append, hbody.lexemes_eq hls]

/-- A text is a lexeme of one kind at most. -/
theorem Lexeme.kind_eq {kind kind' : TokenKind} {text : String} (h : Lexeme kind text) (h' : Lexeme kind' text) :
    kind = kind' := by
  obtain ⟨rule, hrule, haccepts⟩ := h
  obtain ⟨rule', hrule', haccepts'⟩ := h'
  rw [Rule.eq_of_accepts haccepts haccepts', hrule'] at hrule
  exact (PieceKind.token.inj hrule).symm

theorem exists_kinds {ws : List String} (h : ∀ w ∈ ws, IsLexeme w) :
    ∃ ls : List (TokenKind × String), ls.map Prod.snd = ws ∧ ∀ l ∈ ls, Lexeme l.1 l.2 := by
  induction ws with
  | nil => exact ⟨[], rfl, by simp⟩
  | cons w ws ih =>
    obtain ⟨ls, rfl, hls⟩ := ih fun w hw => h w (List.mem_cons_of_mem _ hw)
    obtain ⟨kind, hkind⟩ := h w List.mem_cons_self
    exact ⟨(kind, w) :: ls, rfl, List.forall_mem_cons.2 ⟨hkind, hls⟩⟩

/-- Tokens with these texts, each a lexeme of its kind. -/
structure Spells (ts : List Token) (ws : List String) : Prop where
  texts : ts.map (·.text) = ws
  lexeme : ∀ t ∈ ts, Lexeme t.kind t.text

namespace Spells
variable {ts : List Token} {w : String} {ws us : List String}

theorem of_nil (h : Spells ts []) : ts = [] :=
  List.map_eq_nil_iff.1 h.texts

theorem of_cons (h : Spells ts (w :: ws)) :
    ∃ t rest, ts = t :: rest ∧ t.text = w ∧ Lexeme t.kind w ∧ Spells rest ws := by
  obtain ⟨t, rest, rfl, rfl, hrest⟩ := List.map_eq_cons_iff.1 h.texts
  exact ⟨t, rest, rfl, rfl, h.lexeme t (by simp), hrest, fun t ht => h.lexeme t (by simp [ht])⟩

theorem of_append (h : Spells ts (ws ++ us)) :
    ∃ first second, ts = first ++ second ∧ Spells first ws ∧ Spells second us := by
  obtain ⟨first, second, rfl, hfirst, hsecond⟩ := List.map_eq_append_iff.1 h.texts
  exact ⟨first, second, rfl, ⟨hfirst, fun t ht => h.lexeme t (by simp [ht])⟩,
    hsecond, fun t ht => h.lexeme t (by simp [ht])⟩

end Spells

/-- A layout of lexemes is read as those lexemes. -/
theorem Layout.spells {ws : List String} {source : String} (h : Layout ws source.toList)
    (hws : ∀ w ∈ ws, IsLexeme w) : Spells (tokenize source) ws := by
  obtain ⟨ls, rfl, hls⟩ := exists_kinds hws
  have hread : (tokenize source).map (fun t => (t.kind, t.text)) = ls := by
    rw [← lexemes_toList]
    exact h.lexemes_eq hls
  constructor
  · rw [← hread, List.map_map]
    rfl
  · intro t ht
    refine hls (t.kind, t.text) ?_
    rw [← hread]
    exact List.mem_map_of_mem ht

/-! ## Tokens are lexemes -/

/-- A rule accepts every piece that becomes a token of a known kind. -/
theorem Cut.exists_rule {s w : List Char} {piece : PieceKind} (h : Cut s w piece) {kind : TokenKind}
    (hpiece : piece = .token kind) (hkind : kind ≠ .unknown) :
    ∃ rule : Rule, rule.pieceKind = .token kind ∧ rule.Accepts w := by
  cases h with
  | accepted hmatch _ => exact ⟨_, hpiece, hmatch.accepted⟩
  | comment => cases hpiece
  | openComment => cases hpiece; exact absurd rfl hkind
  | openQuote => cases hpiece; exact absurd rfl hkind
  | single => cases hpiece; exact absurd rfl hkind

theorem Cuts.lexeme {s : List Char} {pieces : List (List Char × PieceKind)} (h : Cuts s pieces)
    {l : TokenKind × String} (hl : l ∈ pieces.filterMap tokenOf) (hkind : l.1 ≠ .unknown) : Lexeme l.1 l.2 := by
  induction h with
  | nil => simp at hl
  | @cons w more piece pieces hcut _ ih =>
    cases piece with
    | trivia => exact ih hl
    | token kind =>
      rcases List.mem_cons.1 hl with rfl | hl
      · obtain ⟨rule, hrule, haccepts⟩ := hcut.exists_rule rfl hkind
        exact ⟨rule, hrule, by rwa [String.toList_ofList]⟩
      · exact ih hl

/-- Every token of a text is a lexeme, but for those of unknown kind. -/
theorem lexeme_of_mem_tokenize {source : String} {t : Token} (ht : t ∈ tokenize source) (hkind : t.kind ≠ .unknown) :
    Lexeme t.kind t.text := by
  obtain ⟨pieces, hpieces⟩ := exists_cuts source.toList
  have hmem := List.mem_map_of_mem (f := fun t : Token => (t.kind, t.text)) ht
  rw [tokenize_eq, hpieces.tokens] at hmem
  exact hpieces.lexeme hmem hkind

/-! ## Printed lexemes -/

/-- Words in a row with these gaps between neighbours. -/
def spread : List String → List (List Char) → List Char
  | [], _ => []
  | [w], _ => w.toList
  | w :: ws, gaps => w.toList ++ (gaps.headD [] ++ spread ws gaps.tail)

/-- With a separator in every gap, and at the end if anything is there, the
words are spaced. -/
theorem spaced_spread {w : String} {ws : List String} {gaps : List (List Char)} {trailing : List Char}
    (hcount : gaps.length = ws.length) (hgaps : ∀ gap ∈ gaps, Separator gap)
    (htrailing : trailing = [] ∨ Separator trailing) : Spaced (w :: ws) (spread (w :: ws) gaps ++ trailing) := by
  induction ws generalizing w gaps with
  | nil =>
    rw [spread]
    rcases htrailing with rfl | hsep
    · rw [List.append_nil]
      exact .last w
    · rw [← List.append_nil trailing]
      exact .cons hsep .nil
  | cons v ws ih =>
    cases gaps with
    | nil => cases hcount
    | cons gap gaps =>
      have hspread : spread (w :: v :: ws) (gap :: gaps) = w.toList ++ (gap ++ spread (v :: ws) gaps) := rfl
      rw [hspread, List.append_assoc, List.append_assoc]
      refine .cons (hgaps gap List.mem_cons_self) (ih (Nat.succ.inj hcount) ?_)
      exact fun gap' hgap' => hgaps gap' (List.mem_cons_of_mem _ hgap')

/-- Lexemes printed one after the other, with any trivia in front, any
separators between neighbours and a separator or nothing at the end, are the
tokens of the text they make. -/
theorem tokenize_spread (ls : List (TokenKind × String)) (leading trailing : List Char) (gaps : List (List Char))
    (hls : ∀ l ∈ ls, Lexeme l.1 l.2) (hleading : Trivia leading) (hcount : gaps.length = ls.length - 1)
    (hgaps : ∀ gap ∈ gaps, Separator gap) (htrailing : trailing = [] ∨ Separator trailing) :
    (tokenize (String.ofList (leading ++ (spread (ls.map Prod.snd) gaps ++ trailing)))).map
      (fun t => (t.kind, t.text)) = ls := by
  rw [tokenize_eq, String.toList_ofList]
  change lexemes _ = ls
  rw [hleading.lexemes_append]
  cases ls with
  | nil =>
    -- There is nothing between the two pieces of trivia.
    rw [List.map_nil, spread, List.nil_append]
    rcases htrailing with rfl | hsep
    · exact lexemes_nil
    · rw [← List.append_nil trailing, hsep.lexemes_append, lexemes_nil]
  | cons l ls =>
    have hspaced : Spaced ((l :: ls).map Prod.snd) (spread ((l :: ls).map Prod.snd) gaps ++ trailing) :=
      spaced_spread (by simpa using hcount) hgaps htrailing
    exact hspaced.lexemes_eq hls

/-- Operators that open a comment when they touch, with one between them that
has a quote and an opening in it, and a literal that looks like a comment. -/
theorem tokenize_spread_slashes :
    let ls : List (TokenKind × String) := [(.punctuation, "/"), (.punctuation, "*"), (.stringLiteral, "\"//\"")]
    let gaps := [" /* \" /* **/".toList, "\n".toList]
    (tokenize (String.ofList (" ".toList ++ (spread (ls.map Prod.snd) gaps ++ " // end\n".toList)))).map
      (fun t => (t.kind, t.text)) = ls := by
  intro ls gaps
  have hslash : Lexeme .punctuation "/" := ⟨.punctuation, rfl, .inl ⟨'/', by decide, by decide⟩⟩
  have hstar : Lexeme .punctuation "*" := ⟨.punctuation, rfl, .inl ⟨'*', by decide, by decide⟩⟩
  have hbody : QuotedBody "//".toList := .plain (by decide) (by decide) (.plain (by decide) (by decide) .nil)
  have hliteral : Lexeme .stringLiteral "\"//\"" := ⟨.stringLiteral, rfl, "//".toList, by decide, hbody⟩
  have hcomment : Separator " /* \" /* **/".toList :=
    ⟨by decide, .blockComment (by decide +kernel : ¬ ['*', '/'] <:+: " \" /* *".toList) .nil⟩
  have hbreak : Separator "\n".toList := ⟨by decide, .nil⟩
  have hend : Separator " // end\n".toList :=
    ⟨by decide, .lineComment (by decide : '\n' ∉ " end".toList) .nil⟩
  refine tokenize_spread ls " ".toList _ gaps ?_ (.blank (by decide) .nil) rfl ?_ (.inr hend)
  · exact List.forall_mem_cons.2 ⟨hslash, List.forall_mem_cons.2 ⟨hstar, List.forall_mem_singleton.2 hliteral⟩⟩
  · exact List.forall_mem_cons.2 ⟨hcomment, List.forall_mem_singleton.2 hbreak⟩

end SourceModel.Lexical
