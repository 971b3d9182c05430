import SourceModel.Proofs.Lexical.LineIndex
import SourceModel.Proofs.Lexical.Longest
/-!
# A text is cut into its longest matches

`Cut` says which piece stands at the front of a text, in terms of the rules'
languages alone: the longest prefix any rule accepts, a block comment through
its first end or, where no rule accepts anything, an unfinished string literal
or a single character. Cutting piece by piece divides every text in exactly
one way, and the tokens of the text are the pieces that are not blanks or
finished comments.
-/

namespace SourceModel.Lexical

/-! ## Ends of comments -/

/-- The first end of a comment in `s` stands behind `body`. -/
structure FirstEnd (s body rest : List Char) : Prop where
  split : s = body ++ '*' :: '/' :: rest
  first : ∀ {body' rest'}, s = body' ++ '*' :: '/' :: rest' → body.length ≤ body'.length

theorem firstEnd_nil (rest : List Char) : FirstEnd ('*' :: '/' :: rest) [] rest where
  split := rfl
  first _ := Nat.zero_le _

/-- A character that does not start an end comes before the first end. -/
theorem FirstEnd.cons {s body rest : List Char} (h : FirstEnd s body rest) {c : Char}
    (hc : ∀ rest', c = '*' → s = '/' :: rest' → False) : FirstEnd (c :: s) (c :: body) rest where
  split := by rw [h.split, List.cons_append]
  first {body' rest'} hsplit := by
    cases body' with
    | nil => rw [List.nil_append, List.cons.injEq] at hsplit; exact (hc rest' hsplit.1 hsplit.2).elim
    | cons d body' =>
      rw [List.cons_append, List.cons.injEq] at hsplit
      exact Nat.succ_le_succ (h.first hsplit.2)

theorem throughCommentEnd_some {s : List Char} {n : Nat} (h : throughCommentEnd s = some n) :
    ∃ body rest, FirstEnd s body rest ∧ n = body.length + 2 := by
  fun_induction throughCommentEnd s generalizing n with
  | case1 rest => cases h; exact ⟨[], rest, firstEnd_nil rest, rfl⟩
  | case2 c s hc ih =>
    obtain ⟨m, hm, rfl⟩ := Option.map_eq_some_iff.1 h
    obtain ⟨body, rest, hend, rfl⟩ := ih hm
    exact ⟨c :: body, rest, hend.cons hc, rfl⟩
  | case3 => cases h

theorem throughCommentEnd_none {s : List Char} (h : throughCommentEnd s = none) (body rest : List Char) :
    s ≠ body ++ '*' :: '/' :: rest := by
  fun_induction throughCommentEnd s generalizing body with
  | case1 rest => cases h
  | case2 c s hc ih =>
    intro hsplit
    cases body with
    | nil => rw [List.nil_append, List.cons.injEq] at hsplit; exact hc rest hsplit.1 hsplit.2
    | cons d body =>
      rw [List.cons_append, List.cons.injEq] at hsplit
      exact ih (Option.map_eq_none_iff.1 h) body hsplit.2
  | case3 => simp

theorem throughCommentEnd_eq {s body rest : List Char} (h : FirstEnd s body rest) :
    throughCommentEnd s = some (body.length + 2) := by
  cases hend : throughCommentEnd s with
  | none => exact absurd h.split (throughCommentEnd_none hend body rest)
  | some n =>
    obtain ⟨body', rest', hend', rfl⟩ := throughCommentEnd_some hend
    have := h.first hend'.split
    have := hend'.first h.split
    rw [Option.some.injEq]
    omega

/-! ## The piece at the front -/

/-- What becomes of a piece that a rule accepts. -/
def Rule.pieceKind : Rule → PieceKind
  | .blanks | .lineComment | .commentOpening => .trivia
  | .identifier => .token .identifier
  | .number => .token .number
  | .stringLiteral => .token .stringLiteral
  | .punctuation => .token .punctuation

/-- No rule accepts any prefix of the text. -/
def Unmatched (s : List Char) : Prop :=
  ∀ (rule : Rule) (w : List Char), w <+: s → ¬ rule.Accepts w

/-- The piece at the front of a text, with what becomes of it. -/
inductive Cut (s : List Char) : List Char → PieceKind → Prop
  | accepted {rule : Rule} {w : List Char} : LongestMatch s rule w → rule ≠ .commentOpening → Cut s w rule.pieceKind
  /-- A block comment goes through its first end. -/
  | comment {w t body rest : List Char} : LongestMatch s .commentOpening w → s = w ++ t → FirstEnd t body rest →
      Cut s (w ++ body ++ ['*', '/']) .trivia
  /-- One without an end takes all that is left. -/
  | openComment {w t : List Char} : LongestMatch s .commentOpening w → s = w ++ t →
      (∀ body rest, t ≠ body ++ '*' :: '/' :: rest) → Cut s s (.token .unknown)
  /-- A quote that starts no literal takes the longest body it can. -/
  | openQuote {body : List Char} : Unmatched s → '"' :: body <+: s → QuotedBody body →
      (∀ body', '"' :: body' <+: s → QuotedBody body' → body'.length ≤ body.length) →
      Cut s ('"' :: body) (.token .unknown)
  | single {c : Char} {rest : List Char} : Unmatched s → s = c :: rest → c ≠ '"' → Cut s [c] (.token .unknown)

theorem Cut.isPrefix {s w : List Char} {kind : PieceKind} (h : Cut s w kind) : w <+: s := by
  cases h with
  | accepted hmatch _ => exact hmatch.isPrefix
  | @comment _ _ _ rest _ hs hend => exact ⟨rest, by rw [hs, hend.split]; simp⟩
  | openComment => exact List.prefix_refl _
  | openQuote _ hbody => exact hbody
  | single _ hs => exact ⟨_, by rw [hs]; rfl⟩

theorem Cut.ne_nil {s w : List Char} {kind : PieceKind} (h : Cut s w kind) : w ≠ [] := by
  cases h with
  | accepted hmatch _ => exact Rule.ne_nil_of_accepts hmatch.accepted
  | comment => simp
  | openComment hmatch hs =>
    rw [hs]
    simp [Rule.ne_nil_of_accepts hmatch.accepted]
  | openQuote => simp
  | single => simp

/-- Reading goes on behind a body, and what it reads is a body again, so it stops
behind the longest. -/
theorem quotedLength_of_longest {body rest : List Char} (hbody : QuotedBody body)
    (hmax : ∀ body', '"' :: body' <+: '"' :: body ++ rest → QuotedBody body' → body'.length ≤ body.length) :
    Rule.quotedLength (body ++ rest) = body.length := by
  have hge := Rule.quotedLength_append hbody rest
  have hle := hmax ((body ++ rest).take (Rule.quotedLength (body ++ rest)))
    ((List.prefix_cons_inj '"').2 (List.take_prefix _ _)) (Rule.quotedBody_take _)
  rw [List.length_take, Nat.min_eq_left (Rule.quotedLength_le _)] at hle
  omega

/-- The scan finds the piece. -/
theorem Cut.nextPiece_eq {s w : List Char} {kind : PieceKind} (h : Cut s w kind) :
    nextPiece s = ⟨kind, w.length⟩ := by
  cases h with
  | @accepted rule _ hmatch hne =>
    unfold nextPiece
    rw [Rule.best_of_longestMatch hmatch]
    cases rule <;> first | rfl | exact absurd rfl hne
  | comment hmatch hs hend =>
    unfold nextPiece
    rw [Rule.best_of_longestMatch hmatch]
    simp only [hs, List.drop_left, throughCommentEnd_eq hend, List.length_append, List.length_cons, List.length_nil,
      Nat.add_assoc]
  | @openComment w t hmatch hs hnone =>
    have hend : throughCommentEnd t = none := by
      cases hend : throughCommentEnd t with
      | none => rfl
      | some n =>
        obtain ⟨body, rest, hfirst, -⟩ := throughCommentEnd_some hend
        exact absurd hfirst.split (hnone body rest)
    unfold nextPiece
    rw [Rule.best_of_longestMatch hmatch]
    simp only [hs, List.drop_left, hend]
  | @openQuote body hnone hprefix hbody hmax =>
    obtain ⟨rest, rfl⟩ := hprefix
    unfold nextPiece
    rw [Rule.best_eq_none_iff.2 hnone]
    simp only [List.cons_append, quotedLength_of_longest hbody hmax, List.length_cons]
  | @single c rest hnone hs hc =>
    unfold nextPiece
    rw [Rule.best_eq_none_iff.2 hnone, hs]
    simp only [List.length_cons, List.length_nil]
    split
    · rename_i heq
      rw [List.cons.injEq] at heq
      exact absurd heq.1 hc
    · rfl

/-- Every text has a piece at its front. -/
theorem exists_cut {s : List Char} (hs : s ≠ []) : ∃ w kind, Cut s w kind := by
  cases hbest : Rule.best s with
  | some found =>
    obtain ⟨rule, n⟩ := found
    obtain ⟨hn, hmatch⟩ := Rule.longestMatch_of_best hbest
    -- Every other rule's match is the piece; an opening goes on to the end of its comment.
    by_cases hrule : rule = .commentOpening
    · subst hrule
      have hsplit : s = s.take n ++ s.drop n := (List.take_append_drop n s).symm
      cases hend : throughCommentEnd (s.drop n) with
      | none => exact ⟨s, _, .openComment hmatch hsplit (throughCommentEnd_none hend)⟩
      | some m =>
        obtain ⟨body, rest, hfirst, -⟩ := throughCommentEnd_some hend
        exact ⟨_, _, .comment hmatch hsplit hfirst⟩
    · exact ⟨_, _, .accepted hmatch hrule⟩
  | none =>
    have hnone : Unmatched s := Rule.best_eq_none_iff.1 hbest
    cases s with
    | nil => exact absurd rfl hs
    | cons c rest =>
      by_cases hc : c = '"'
      · subst hc
        refine ⟨_, _, .openQuote hnone ((List.prefix_cons_inj _).2 (List.take_prefix (Rule.quotedLength rest) rest))
          (Rule.quotedBody_take rest) ?_⟩
        rintro body ⟨more, hmore⟩ hbody
        rw [List.cons_append, List.cons.injEq] at hmore
        have := Rule.quotedLength_append hbody more
        rw [List.length_take, Nat.min_eq_left (Rule.quotedLength_le _), ← hmore.2]
        omega
      · exact ⟨[c], _, .single hnone rfl hc⟩

theorem Cut.unique {s w w' : List Char} {kind kind' : PieceKind} (h : Cut s w kind) (h' : Cut s w' kind') :
    w = w' ∧ kind = kind' := by
  have heq := h.nextPiece_eq
  rw [h'.nextPiece_eq, Piece.mk.injEq] at heq
  refine ⟨?_, heq.1.symm⟩
  rw [List.prefix_iff_eq_take.1 h.isPrefix, List.prefix_iff_eq_take.1 h'.isPrefix, heq.2]

/-! ## The whole text -/

/-- A text as its pieces from left to right. -/
inductive Cuts : List Char → List (List Char × PieceKind) → Prop
  | nil : Cuts [] []
  | cons {w more : List Char} {kind : PieceKind} {pieces : List (List Char × PieceKind)} :
      Cut (w ++ more) w kind → Cuts more pieces → Cuts (w ++ more) ((w, kind) :: pieces)

theorem exists_cuts (s : List Char) : ∃ pieces, Cuts s pieces := by
  induction hn : s.length using Nat.strongRecOn generalizing s with
  | ind n ih =>
    by_cases hs : s = []
    · subst hs
      exact ⟨[], .nil⟩
    · -- A piece is not empty, so what is left is shorter.
      obtain ⟨w, kind, hcut⟩ := exists_cut hs
      obtain ⟨more, rfl⟩ := hcut.isPrefix
      have hpos := List.length_pos_iff.2 hcut.ne_nil
      rw [List.length_append] at hn
      obtain ⟨pieces, hpieces⟩ := ih more.length (by omega) more rfl
      exact ⟨(w, kind) :: pieces, .cons hcut hpieces⟩

theorem Cuts.unique {s : List Char} {pieces pieces' : List (List Char × PieceKind)} (h : Cuts s pieces)
    (h' : Cuts s pieces') : pieces' = pieces := by
  induction h generalizing pieces' with
  | nil =>
    generalize hs : ([] : List Char) = s at h'
    cases h' with
    | nil => rfl
    | cons hcut _ => exact absurd (List.append_eq_nil_iff.1 hs.symm).1 hcut.ne_nil
  | @cons w more kind pieces hcut _ ih =>
    generalize hs : w ++ more = s at h'
    cases h' with
    | nil => exact absurd (List.append_eq_nil_iff.1 hs).1 hcut.ne_nil
    | cons hcut' hrest =>
      -- The first pieces are the same, so the same text is left behind them.
      rw [hs] at hcut
      obtain ⟨rfl, rfl⟩ := hcut.unique hcut'
      rw [List.append_right_inj] at hs
      subst hs
      rw [ih hrest]

theorem Cuts.flatten {s : List Char} {pieces : List (List Char × PieceKind)} (h : Cuts s pieces) :
    (pieces.map Prod.fst).flatten = s := by
  induction h with
  | nil => rfl
  | cons _ _ ih => rw [List.map_cons, List.flatten_cons, ih]

theorem Cuts.ne_nil {s : List Char} {pieces : List (List Char × PieceKind)} (h : Cuts s pieces) :
    ∀ piece ∈ pieces, piece.1 ≠ [] := by
  induction h with
  | nil => simp
  | cons hcut _ ih =>
    rintro piece (_ | ⟨_, hmem⟩)
    · exact hcut.ne_nil
    · exact ih piece hmem

/-! ## Tokens -/

/-- The kind and the text of the token that a piece becomes, if it does. -/
def tokenOf (piece : List Char × PieceKind) : Option (TokenKind × String) :=
  match piece.2 with
  | .trivia => none
  | .token kind => some (kind, String.ofList piece.1)

theorem tokensFrom_nil (caret : Caret) : tokensFrom caret [] = [] := by
  rw [tokensFrom.eq_def]

/-- The tokens of a text are those of its first piece and of what follows it. -/
theorem tokensFrom_cut {w more : List Char} {kind : PieceKind} (h : Cut (w ++ more) w kind) (caret : Caret) :
    tokensFrom caret (w ++ more) =
      ((tokenOf (w, kind)).map fun t => ⟨t.1, t.2, caret.position⟩).toList ++ tokensFrom (caret.advance w) more := by
  have hpiece := h.nextPiece_eq
  cases w with
  | nil => exact absurd rfl h.ne_nil
  | cons c w =>
    rw [List.cons_append] at hpiece ⊢
    rw [tokensFrom.eq_def]
    simp only [hpiece, List.length_cons, Nat.add_sub_cancel, List.take_left, List.drop_left]
    cases kind <;> simp [tokenOf]

theorem Cuts.tokens {s : List Char} {pieces : List (List Char × PieceKind)} (h : Cuts s pieces) (caret : Caret) :
    (tokensFrom caret s).map (fun t => (t.kind, t.text)) = pieces.filterMap tokenOf := by
  induction h generalizing caret with
  | nil => rw [tokensFrom_nil]; rfl
  | @cons w more kind pieces hcut _ ih =>
    rw [tokensFrom_cut hcut, List.map_append, ih, List.filterMap_cons]
    cases tokenOf (w, kind) <;> simp

/-- A text has one division into pieces, each the piece at the front of what is
left there. The pieces are not empty and together are the text, and its tokens
are those of the pieces, in their order. -/
theorem tokenize_cuts (source : String) :
    ∃ pieces, (∀ pieces', Cuts source.toList pieces' ↔ pieces' = pieces) ∧
      (pieces.map Prod.fst).flatten = source.toList ∧ (∀ piece ∈ pieces, piece.1 ≠ []) ∧
      (tokenize source).map (fun t => (t.kind, t.text)) = pieces.filterMap tokenOf := by
  obtain ⟨pieces, hpieces⟩ := exists_cuts source.toList
  rw [tokenize_eq]
  refine ⟨pieces, fun pieces' => ⟨hpieces.unique, ?_⟩, hpieces.flatten, hpieces.ne_nil, hpieces.tokens .start⟩
  rintro rfl
  exact hpieces

end SourceModel.Lexical
