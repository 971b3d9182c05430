import SourceModel.Proofs.Lexical.Layout
import SourceModel.Proofs.Lexical.Positions
import Mathlib.Data.List.Forall2
/-!
# Lexing is local at line breaks

A text that is followed by a line break and more text keeps its tokens, unless
its last token is an unfinished literal or comment, which would go on into what
follows. Every other piece ends where it ended: of the rules only those for
blanks and string literals have line feeds in their words, a literal closes at
its first quote, and an unfinished literal inside the text was cut at a
backslash, which a line feed does not mend. The text behind the line break is
read as if it stood alone, that many lines further down.
-/

namespace SourceModel

def Position.down (n : Nat) (p : Position) : Position :=
  { p with line := p.line + UInt32.ofNat n }

/-- The line does not wrap as long as it fits a word with the lines added. -/
theorem Position.toNat_line_down {n : Nat} {p : Position} (h : p.line.toNat + n < UInt32.size) :
    (p.down n).line.toNat = p.line.toNat + n := by
  have hn : (UInt32.ofNat n).toNat = n := UInt32.toNat_ofNat_of_lt' (by omega)
  rw [down, UInt32.toNat_add, hn]
  exact Nat.mod_eq_of_lt h

/-- The same token, `n` lines further down. -/
def Token.down (n : Nat) (t : Token) : Token :=
  { t with position := t.position.down n }

namespace Lexical

/-! ## Moving down -/

namespace Caret

def down (n : Nat) (caret : Caret) : Caret :=
  { caret with line := caret.line + n }

theorem position_down (n : Nat) (caret : Caret) : (caret.down n).position = caret.position.down n := by
  simp [position, down, Position.down, UInt32.ofNat_add]

theorem step_down (n : Nat) (caret : Caret) (c : Char) : (caret.down n).step c = (caret.step c).down n := by
  unfold step
  split
  · simp [down, Nat.add_right_comm]
  · rfl

theorem advance_down (n : Nat) (caret : Caret) (s : List Char) :
    (caret.down n).advance s = (caret.advance s).down n := by
  induction s generalizing caret with
  | nil => rfl
  | cons c s ih =>
    simp only [advance, List.foldl_cons, step_down] at ih ⊢
    exact ih (caret.step c)

end Caret

/-- A text further down has the same tokens further down. -/
theorem tokensFrom_down (n : Nat) (caret : Caret) (s : List Char) :
    tokensFrom (caret.down n) s = (tokensFrom caret s).map (Token.down n) := by
  obtain ⟨pieces, hpieces⟩ := exists_cuts s
  induction hpieces generalizing caret with
  | nil => rw [tokensFrom_nil, tokensFrom_nil, List.map_nil]
  | @cons w more kind pieces hcut _ ih =>
    rw [tokensFrom_cut hcut, tokensFrom_cut hcut, List.map_append, Caret.advance_down, ih, Caret.position_down]
    cases tokenOf (w, kind) <;> rfl

/-! ## Words and line feeds -/

/-- A word of a rule other than that for blanks does not go on over a line feed. -/
theorem not_accepts_lineFeed {rule : Rule} {w u : List Char} (h : rule.Accepts w) (hrule : rule ≠ .blanks)
    (hu : '\n' ∈ u) : ¬ rule.Accepts (w ++ u) := by
  intro hlong
  have hmem : '\n' ∈ w ++ u := List.mem_append_right w hu
  have hblank : isBlank '\n' = true := by decide
  cases rule with
  | blanks => exact hrule rfl
  | lineComment =>
    obtain ⟨body, heq, hbody⟩ := hlong
    rw [heq] at hmem
    exact hbody (by simpa using hmem)
  | identifier => rw [isBlank_of_mem hlong hmem (by simp)] at hblank; cases hblank
  | number => rw [isBlank_of_mem hlong hmem (by simp)] at hblank; cases hblank
  | punctuation => rw [isBlank_of_mem hlong hmem (by simp)] at hblank; cases hblank
  | stringLiteral =>
    rw [eq_nil_of_stringLiteral h hlong] at hu
    cases hu
  | commentOpening =>
    rw [show w = ['/', '*'] from h] at hlong
    rw [List.append_right_eq_self.1 (show ['/', '*'] ++ u = ['/', '*'] from hlong)] at hu
    cases hu

/-- The longest match stays the longest when a line break follows the text. -/
theorem LongestMatch.lineBreak {rule : Rule} {w more : List Char} (h : LongestMatch (w ++ more) rule w)
    (hrule : rule ≠ .blanks) (rest : List Char) : LongestMatch (w ++ (more ++ '\n' :: rest)) rule w := by
  -- What starts in the text as it was is no longer match, and no comment opens there.
  have hinside : ∀ c u, c :: u <+: more → (w = ['/'] → c ≠ '/' ∧ c ≠ '*') ∧ ¬ rule.Accepts (w ++ c :: u) := by
    intro c u hcu
    have hshort : ∀ (rule' : Rule) (v : List Char), v <+: more → rule'.Accepts (w ++ v) → v = [] := by
      intro rule' v hv haccepts
      have hle := h.length_le ((List.prefix_append_right_inj w).2 hv) haccepts
      rw [List.length_append] at hle
      exact List.eq_nil_of_length_eq_zero (by omega)
    have hc : [c] <+: more := (List.prefix_append [c] u).trans hcu
    refine ⟨?_, fun haccepts => absurd (hshort rule _ hcu haccepts) (by simp)⟩
    rintro rfl
    constructor
    · rintro rfl
      exact absurd (hshort .lineComment _ hc ⟨[], rfl, by simp⟩) (by simp)
    · rintro rfl
      exact absurd (hshort .commentOpening _ hc rfl) (by simp)
  refine longestMatch_append h.accepted fun c u hcu => ?_
  rcases List.prefix_or_prefix_of_prefix hcu (List.prefix_append more ('\n' :: rest)) with hin | ⟨v, hv⟩
  · exact hinside c u hin
  · cases v with
    | nil =>
      rw [List.append_nil] at hv
      exact hinside c u (hv ▸ List.prefix_refl _)
    | cons d v =>
      rw [← hv] at hcu ⊢
      obtain ⟨rfl, -⟩ := List.cons_prefix_cons.1 ((List.prefix_append_right_inj more).1 hcu)
      refine ⟨?_, not_accepts_lineFeed h.accepted hrule (by simp)⟩
      cases more with
      | nil =>
        obtain ⟨rfl, -⟩ := List.cons.inj hv
        exact fun _ => ⟨by decide, by decide⟩
      | cons e more =>
        obtain ⟨rfl, -⟩ := List.cons.inj hv
        exact (hinside e [] ⟨more, rfl⟩).1

/-- The first end of a comment does not depend on what follows it. -/
theorem FirstEnd.append {s body rest : List Char} (h : FirstEnd s body rest) (t : List Char) :
    FirstEnd (s ++ t) body (rest ++ t) where
  split := by
    rw [h.split]
    simp
  first {body' rest'} hsplit := by
    by_contra hlt
    -- An earlier end would lie in the text as it was.
    have hearly : body' ++ ['*', '/'] <+: s ++ t := ⟨rest', by simp [hsplit]⟩
    have hlen := congrArg List.length h.split
    simp only [List.length_append, List.length_cons] at hlen
    obtain ⟨rest'', hs⟩ := List.prefix_of_prefix_length_le hearly (List.prefix_append s t) (by simp; omega)
    rw [List.append_assoc] at hs
    exact hlt (h.first hs.symm)

/-- A quoted body that ended inside a text ends there still: a line feed does
not mend a backslash at the end of the text. -/
theorem quotedLength_lineBreak {s : List Char} (h : Rule.quotedLength s < s.length) (rest : List Char) :
    Rule.quotedLength (s ++ '\n' :: rest) = Rule.quotedLength s := by
  fun_induction Rule.quotedLength s with
  | case1 => cases h
  | case2 s => rfl
  | case3 => rfl
  | case4 s => simp [Rule.quotedLength]
  | case5 c s hc ih =>
    rw [List.cons_append, List.cons_append, Rule.quotedLength, if_neg hc, ih (by simpa using h)]
  | case6 c s hquote hend hslash ih =>
    have hc : c ≠ '\\' := by
      rintro rfl
      cases s with
      | nil => exact hend rfl rfl
      | cons d s => exact hslash d s rfl rfl
    rw [List.cons_append, Rule.quotedLength_plain hquote hc, ih (by simpa using h)]

/-- What a word starts with is a word, but for a quote. -/
theorem exists_accepts_head {rule : Rule} {c : Char} {u : List Char} (h : rule.Accepts (c :: u)) (hc : c ≠ '"') :
    ∃ rule' : Rule, rule'.Accepts [c] := by
  have hslash : Rule.punctuation.Accepts ['/'] := .inl ⟨'/', rfl, by decide⟩
  have hdouble : doublePunctuation.all (fun p => p.1 ∈ singlePunctuation) = true := by decide
  have hdigit : ∀ d, isDigit d = true → Rule.number.Accepts [d] := fun d hd => .inr (.inl ⟨by simp, by simpa using hd⟩)
  cases rule with
  | blanks => exact ⟨.blanks, by simp, by simpa using h.2 c List.mem_cons_self⟩
  | lineComment =>
    obtain ⟨body, heq, -⟩ := h
    obtain ⟨rfl, -⟩ := List.cons.inj heq
    exact ⟨.punctuation, hslash⟩
  | identifier =>
    obtain ⟨d, body, heq, hd, -⟩ := h
    obtain ⟨rfl, -⟩ := List.cons.inj heq
    exact ⟨.identifier, c, [], rfl, hd, by simp⟩
  | number =>
    refine ⟨.number, hdigit c ?_⟩
    rcases h with ⟨digits, heq, -, -⟩ | ⟨-, hd⟩ | ⟨whole, fraction, heq, hne, -, hw, -⟩
    · obtain ⟨rfl, -⟩ := List.cons.inj heq
      decide
    · exact hd c List.mem_cons_self
    · obtain ⟨d, whole, rfl⟩ := List.exists_cons_of_ne_nil hne
      obtain ⟨rfl, -⟩ := List.cons.inj heq
      exact hw c List.mem_cons_self
  | stringLiteral =>
    obtain ⟨body, heq, -⟩ := h
    exact absurd (List.cons.inj heq).1 hc
  | punctuation =>
    refine ⟨.punctuation, .inl ⟨c, rfl, ?_⟩⟩
    rcases h with ⟨d, heq, hd⟩ | ⟨d, e, heq, hde⟩
    · obtain ⟨rfl, -⟩ := List.cons.inj heq
      exact hd
    · obtain ⟨rfl, -⟩ := List.cons.inj heq
      exact of_decide_eq_true (List.all_eq_true.1 hdouble (c, e) hde)
  | commentOpening =>
    obtain ⟨rfl, -⟩ := List.cons.inj (show c :: u = ['/', '*'] from h)
    exact ⟨.punctuation, hslash⟩

/-! ## Pieces -/

/-- A token that goes on into whatever follows the text. -/
def IsOpen (l : TokenKind × String) : Prop :=
  l.1 = .unknown ∧ (['"'] <+: l.2.toList ∨ ['/', '*'] <+: l.2.toList)

/-- No token goes on behind the end of the text. -/
def Closed (s : List Char) : Prop :=
  ∀ l ∈ (lexemes s).getLast?, ¬ IsOpen l

/-- An unfinished literal that something follows stays unfinished. -/
theorem unmatched_openQuote {body more : List Char} (hnone : Unmatched ('"' :: (body ++ more)))
    (hlen : Rule.quotedLength (body ++ more) = body.length)
    (hshort : Rule.quotedLength (body ++ more) < (body ++ more).length) (rest : List Char) :
    Unmatched ('"' :: (body ++ (more ++ '\n' :: rest))) := by
  rintro rule w ⟨tail, htail⟩ haccepts
  -- Only a literal starts with a quote, and it would close right behind the body.
  obtain ⟨c, w, rfl⟩ := List.exists_cons_of_ne_nil (Rule.ne_nil_of_accepts haccepts)
  rw [List.cons_append, List.cons.injEq] at htail
  obtain ⟨rfl, hw⟩ := htail
  obtain rfl : Rule.stringLiteral = rule := Option.some.inj (Rule.ofStart_eq haccepts)
  obtain ⟨body', heq, hbody'⟩ := haccepts
  obtain ⟨-, rfl⟩ := List.cons.inj heq
  rw [List.append_assoc, List.singleton_append] at hw
  have hlen' := quotedLength_lineBreak hshort rest
  rw [List.append_assoc, ← hw, Rule.quotedLength_append hbody', Rule.quotedLength, hlen] at hlen'
  obtain ⟨rfl, hquote⟩ := List.append_inj hw hlen'
  cases more with
  | nil =>
    rw [hlen, List.append_nil] at hshort
    exact Nat.lt_irrefl _ hshort
  | cons d more =>
    obtain ⟨rfl, -⟩ := List.cons.inj hquote
    refine hnone .stringLiteral ('"' :: (body' ++ ['"'])) ⟨more, ?_⟩ ⟨body', rfl, hbody'⟩
    simp

/-- Every piece but blanks stays the piece at the front when a line break
follows the text, unless it goes on there. -/
theorem Cut.lineBreak {w more : List Char} {kind : PieceKind} (h : Cut (w ++ more) w kind)
    (hblank : ¬ Rule.blanks.Accepts w) (hopen : more = [] → ∀ l ∈ tokenOf (w, kind), ¬ IsOpen l)
    (rest : List Char) : Cut (w ++ (more ++ '\n' :: rest)) w kind := by
  generalize hs : w ++ more = s at h
  have hwhole : w ++ (more ++ '\n' :: rest) = s ++ '\n' :: rest := by rw [← hs, List.append_assoc]
  cases h with
  | @accepted rule _ hmatch hne =>
    subst hs
    refine .accepted (hmatch.lineBreak ?_ rest) hne
    rintro rfl
    exact hblank hmatch.accepted
  | @comment opening t body after hmatch ht hend =>
    rw [hwhole, ht, List.append_assoc]
    refine .comment ?_ rfl (hend.append _)
    rw [ht] at hmatch
    exact hmatch.lineBreak (by decide) rest
  | @openComment opening t hmatch ht hnone =>
    -- All of the text is this piece, and it is open.
    have hmore : more = [] := by simpa using hs
    refine absurd ?_ (hopen hmore (.unknown, String.ofList w) rfl)
    refine ⟨rfl, .inr ?_⟩
    rw [String.toList_ofList, ht, show opening = ['/', '*'] from hmatch.accepted]
    exact List.prefix_append _ _
  | @openQuote body hnone hprefix hbody hmax =>
    rw [← hs] at hnone hmax
    have hlen : Rule.quotedLength (body ++ more) = body.length :=
      quotedLength_of_longest hbody fun body' => hmax body'
    by_cases hmore : more = []
    · refine absurd ?_ (hopen hmore (.unknown, String.ofList ('"' :: body)) rfl)
      exact ⟨rfl, .inl ⟨body, by rw [String.toList_ofList]; rfl⟩⟩
    · have hshort : Rule.quotedLength (body ++ more) < (body ++ more).length := by
        have := List.length_pos_iff.2 hmore
        rw [hlen, List.length_append]
        omega
      refine .openQuote (unmatched_openQuote hnone hlen hshort rest) (List.prefix_append _ _) hbody ?_
      rintro body' ⟨tail, htail⟩ hbody'
      rw [List.cons_append, List.cons_append, List.cons.injEq] at htail
      have hle := Rule.quotedLength_append hbody' tail
      rw [htail.2, ← List.append_assoc, quotedLength_lineBreak hshort, hlen] at hle
      omega
  | @single c after hnone hafter hc =>
    refine .single ?_ rfl hc
    rintro rule w ⟨tail, htail⟩ haccepts
    obtain ⟨d, w, rfl⟩ := List.exists_cons_of_ne_nil (Rule.ne_nil_of_accepts haccepts)
    obtain ⟨rfl, -⟩ := List.cons.inj htail
    obtain ⟨rule', hd⟩ := exists_accepts_head haccepts hc
    exact hnone rule' [d] ⟨after, by rw [hafter]; rfl⟩ hd

/-! ## The whole text -/

theorem tokensFrom_blanks {w : List Char} (h : ∀ c ∈ w, isBlank c = true) (caret : Caret) (s : List Char) :
    tokensFrom caret (w ++ s) = tokensFrom (caret.advance w) s := by
  induction w generalizing caret with
  | nil => rfl
  | cons c w ih =>
    rw [List.cons_append, tokensFrom_blank (h c List.mem_cons_self),
      ih (fun d hd => h d (List.mem_cons_of_mem _ hd))]
    rfl

theorem Closed.of_cut {w more : List Char} {kind : PieceKind} (h : Closed (w ++ more))
    (hcut : Cut (w ++ more) w kind) :
    Closed more ∧ (more = [] → ∀ l ∈ tokenOf (w, kind), ¬ IsOpen l) := by
  rw [Closed, lexemes_cut hcut, List.getLast?_append] at h
  constructor
  · intro l hl
    exact h l (by rw [Option.mem_def.1 hl]; rfl)
  · rintro rfl l hl
    refine h l ?_
    rw [lexemes_nil, Option.mem_def.1 hl]
    rfl

/-- A text without an open end keeps its tokens before a line break, and what
follows is read from the start of the next line. -/
theorem tokensFrom_lineBreak {s : List Char} (hclosed : Closed s) (caret : Caret) (rest : List Char) :
    tokensFrom caret (s ++ '\n' :: rest) =
      tokensFrom caret s ++ tokensFrom ((caret.advance s).step '\n') rest := by
  obtain ⟨pieces, hpieces⟩ := exists_cuts s
  induction hpieces generalizing caret with
  | nil =>
    rw [tokensFrom_nil, List.nil_append, List.nil_append, tokensFrom_blank (by decide)]
    rfl
  | @cons w more kind pieces hcut _ ih =>
    obtain ⟨hmore, hopen⟩ := hclosed.of_cut hcut
    rw [List.append_assoc, Caret.advance_append]
    by_cases hblank : Rule.blanks.Accepts w
    · rw [tokensFrom_blanks hblank.2, tokensFrom_blanks hblank.2, ih hmore]
    · rw [tokensFrom_cut (hcut.lineBreak hblank hopen rest), tokensFrom_cut hcut, ih hmore, List.append_assoc]

/-- Two texts with a line break between them have the tokens of both, those of
the second below the lines of the first. -/
theorem tokenize_lineBreak {a : String} (hclosed : Closed a.toList) (b : String) :
    tokenize (a ++ "\n" ++ b) = tokenize a ++ (tokenize b).map (Token.down (a.toList.count '\n' + 1)) := by
  have htext : (a ++ "\n" ++ b).toList = a.toList ++ '\n' :: b.toList := by simp
  have hcaret : (Caret.start.advance a.toList).step '\n' = Caret.start.down (a.toList.count '\n' + 1) := by
    rw [Caret.advance_start]
    simp [Caret.step, Caret.down, Caret.start]
  rw [tokenize_eq, tokenize_eq, tokenize_eq, htext, tokensFrom_lineBreak hclosed, hcaret, tokensFrom_down]

/-! ## Line numbers -/

/-- A token stands before the end of its text, so fewer lines end before it
than the text has characters. -/
theorem StandsAt.line_lt {s : List Char} {t : Token} {offset : Nat} (h : StandsAt s t offset) :
    t.position.line.toNat < s.length := by
  have hlt : offset < s.length := by
    obtain ⟨row, c, -, -, hhead⟩ := h.shown
    by_contra hend
    have htext := h.text
    rw [List.drop_eq_nil_of_le (Nat.not_lt.1 hend), List.prefix_nil] at htext
    rw [htext] at hhead
    cases hhead
  calc t.position.line.toNat = (s.take offset).count '\n' := h.line
    _ ≤ (s.take offset).length := List.count_le_length
    _ ≤ offset := List.length_take_le _ _
    _ < s.length := hlt

theorem line_lt_of_mem {source : String} (hlen : source.length < 2 ^ 32) {t : Token} (h : t ∈ tokenize source) :
    t.position.line.toNat < source.length := by
  obtain ⟨pieces, hpieces⟩ := exists_cuts source.toList
  have hstands := hpieces.standsAt [] (by rwa [List.nil_append, String.length_toList])
  have hlines := hstands.imp fun _ _ ht => And.intro ht.line_lt ht
  rw [tokenize_eq] at h
  rw [← String.length_toList]
  exact ((List.forall₂_and_left _ _).1 hlines).1 t h

/-- The same token with `n` more lines above it. -/
structure StandsBelow (n : Nat) (t t' : Token) : Prop where
  kind : t'.kind = t.kind
  text : t'.text = t.text
  line : t'.position.line.toNat = t.position.line.toNat + n
  column : t'.position.column = t.position.column

theorem standsBelow_down {n : Nat} {t : Token} (h : t.position.line.toNat + n < UInt32.size) :
    StandsBelow n t (t.down n) where
  kind := rfl
  text := rfl
  line := Position.toNat_line_down h
  column := rfl

/-- Lexing is local at line breaks. Where the last token of a text, if any, is
not an unfinished literal or comment, the text followed by a line break and a
second text has its own tokens as they were, and then those of the second with
the lines of the first above them. -/
theorem tokenize_local (a b : String) (hlen : a.length + b.length < 2 ^ 32)
    (hlast : ∀ t ∈ (tokenize a).getLast?, t.kind = .unknown →
      ¬ ['"'] <+: t.text.toList ∧ ¬ ['/', '*'] <+: t.text.toList) :
    ∃ below, tokenize (a ++ "\n" ++ b) = tokenize a ++ below ∧
      List.Forall₂ (StandsBelow (1 + a.toList.count '\n')) (tokenize b) below := by
  have hclosed : Closed a.toList := by
    intro l hl hopen
    rw [lexemes_toList, List.getLast?_map] at hl
    obtain ⟨t, ht, rfl⟩ := Option.map_eq_some_iff.1 hl
    obtain ⟨hquote, hcomment⟩ := hlast t ht hopen.1
    exact hopen.2.elim hquote hcomment
  refine ⟨_, tokenize_lineBreak hclosed b, List.forall₂_map_right_iff.2 (List.forall₂_same.2 fun t ht => ?_)⟩
  rw [Nat.add_comm 1]
  refine standsBelow_down ?_
  have hline : t.position.line.toNat < b.length := line_lt_of_mem (by omega) ht
  have hcount : a.toList.count '\n' ≤ a.length := by
    rw [← String.length_toList]
    exact List.count_le_length
  rw [UInt32.size]
  omega

/-- Two unfinished literals that a backslash cuts off, the second right before
the line break: a line break completes no escape, and the quote behind it opens
a literal of its own. -/
theorem tokenize_local_backslash :
    let a := "\"x\\\n\"y\\"
    let b := "z\" // end"
    a.length + b.length < 2 ^ 32 ∧
      (tokenize a).map (·.text) = ["\"x", "\\", "\"y", "\\"] ∧ (∀ t ∈ tokenize a, t.kind = .unknown) ∧
      (∃ below, tokenize (a ++ "\n" ++ b) = tokenize a ++ below ∧
        List.Forall₂ (StandsBelow (1 + a.toList.count '\n')) (tokenize b) below) ∧
      (tokenize b).map (·.position) = [⟨0, 0⟩, ⟨0, 1⟩] ∧
      ((tokenize (a ++ "\n" ++ b)).drop 4).map (·.position) = [⟨2, 0⟩, ⟨2, 1⟩] := by
  intro a b
  have hlen : a.length + b.length < 2 ^ 32 := by decide
  have hlast : ∀ t ∈ (tokenize a).getLast?, t.kind = .unknown →
      ¬ ['"'] <+: t.text.toList ∧ ¬ ['/', '*'] <+: t.text.toList := by decide +kernel
  exact ⟨hlen, by decide +kernel, by decide +kernel, tokenize_local a b hlen hlast, by decide +kernel,
    by decide +kernel⟩

end Lexical

end SourceModel
