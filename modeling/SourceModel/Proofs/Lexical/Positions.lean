import SourceModel.Proofs.Lexical.Partition
import Mathlib.Algebra.Group.Nat.Defs
/-!
# Where tokens stand

The position that a line index gives for a token is that of a caret which is
carried along from piece to piece (`tokenize_eq`). Behind a text it stands in the
line that counts the line feeds of the text, in the column that counts the
characters since the last of them. So the position of a token follows from the
offset of its piece alone: it leads to the token's first character in the lines
of the text, and it grows from each token to the next.
-/

namespace SourceModel

/-- Earlier in a document: on an earlier line, or before on the same line. -/
def Position.Before (p q : Position) : Prop :=
  p.line < q.line ∨ p.line = q.line ∧ p.column < q.column

namespace Lexical

/-! ## Carets -/

namespace Caret

def Before (a b : Caret) : Prop :=
  a.line < b.line ∨ a.line = b.line ∧ a.column < b.column

theorem before_step (caret : Caret) (c : Char) : caret.Before (caret.step c) := by
  unfold step
  split
  · exact .inl (Nat.lt_succ_self _)
  · exact .inr ⟨rfl, Nat.lt_succ_self _⟩

theorem Before.trans {a b c : Caret} (hab : a.Before b) (hbc : b.Before c) : a.Before c := by
  unfold Before at *
  omega

theorem before_advance (caret : Caret) {s : List Char} (hs : s ≠ []) : caret.Before (caret.advance s) := by
  induction s using List.reverseRecOn with
  | nil => exact absurd rfl hs
  | append_singleton s c ih =>
    rw [advance_append]
    by_cases hnil : s = []
    · subst hnil
      exact before_step caret c
    · exact (ih hnil).trans (before_step _ c)

/-- Every character moves the caret by one line or one column at most. -/
theorem advance_le (caret : Caret) (s : List Char) :
    (caret.advance s).line ≤ caret.line + s.length ∧ (caret.advance s).column ≤ caret.column + s.length := by
  induction s generalizing caret with
  | nil => exact ⟨Nat.le_refl _, Nat.le_refl _⟩
  | cons c s ih =>
    obtain ⟨hline, hcolumn⟩ := ih (caret.step c)
    have hstep : (caret.step c).line ≤ caret.line + 1 ∧ (caret.step c).column ≤ caret.column + 1 := by
      unfold step
      split <;> simp
    rw [advance, List.foldl_cons, ← advance, List.length_cons]
    omega

/-- A caret whose line and column fit a word. -/
def Fits (caret : Caret) : Prop :=
  caret.line < UInt32.size ∧ caret.column < UInt32.size

theorem fits_advance_start {s : List Char} (h : s.length < UInt32.size) : (start.advance s).Fits := by
  have hle := start.advance_le s
  simp only [start, Nat.zero_add] at hle
  exact ⟨Nat.lt_of_le_of_lt hle.1 h, Nat.lt_of_le_of_lt hle.2 h⟩

theorem Fits.toNat_line {caret : Caret} (h : caret.Fits) : caret.position.line.toNat = caret.line :=
  UInt32.toNat_ofNat_of_lt' h.1

theorem Fits.toNat_column {caret : Caret} (h : caret.Fits) : caret.position.column.toNat = caret.column :=
  UInt32.toNat_ofNat_of_lt' h.2

/-- Narrowing keeps the order of carets that fit. -/
theorem Before.position {a b : Caret} (h : a.Before b) (ha : a.Fits) (hb : b.Fits) :
    a.position.Before b.position := by
  rw [Position.Before, UInt32.lt_iff_toNat_lt, UInt32.lt_iff_toNat_lt, ← UInt32.toNat_inj, ha.toNat_line,
    hb.toNat_line, ha.toNat_column, hb.toNat_column]
  exact h

end Caret

/-! ## Lines of a text -/

theorem length_splitOn (s : List Char) : (s.splitOn '\n').length = s.count '\n' + 1 := by
  induction s with
  | nil => rfl
  | cons c s ih =>
    rw [List.splitOn_cons_eq_if_modifyHead]
    by_cases hc : c = '\n'
    · simp [hc, ih]
    · simp [hc, ih]

/-- What stands before the first line feed is part of the first line. -/
theorem splitOn_append {w : List Char} (h : '\n' ∉ w) (s : List Char) :
    (w ++ s).splitOn '\n' = (s.splitOn '\n').modifyHead (w ++ ·) := by
  induction w with
  | nil =>
    rw [List.nil_append]
    cases s.splitOn '\n' <;> rfl
  | cons c w ih =>
    rw [List.mem_cons, not_or] at h
    rw [List.cons_append, List.splitOn_cons_eq_if_modifyHead, if_neg (by simpa using Ne.symm h.1), ih h.2,
      List.modifyHead_modifyHead]
    rfl

/-- The character behind a text stands in the line and column that the text
leads to. -/
theorem exists_row (before : List Char) {c : Char} (hc : c ≠ '\n') (rest : List Char) :
    ∃ row, ((before ++ c :: rest).splitOn '\n')[before.count '\n']? = some row ∧
      row[(before.rtakeWhile (· ≠ '\n')).length]? = some c := by
  obtain ⟨hline, hbefore⟩ := exists_lastLine before
  generalize before.rtakeWhile (· ≠ '\n') = line at hline hbefore ⊢
  -- The line goes on with the character and whatever is left of it.
  obtain ⟨more, others, hrest⟩ := List.exists_cons_of_ne_nil (List.splitOn_ne_nil '\n' rest)
  have hlast : (line ++ c :: rest).splitOn '\n' = (line ++ c :: more) :: others := by
    rw [splitOn_append hline, List.splitOn_cons_eq_if_modifyHead, if_neg (by simpa using hc), hrest]
    rfl
  refine ⟨line ++ c :: more, ?_, by simp⟩
  rcases hbefore with rfl | ⟨front, rfl⟩
  · rw [hlast, List.count_eq_zero.2 hline]
    rfl
  · have hcount : (front ++ '\n' :: line).count '\n' = (front.splitOn '\n').length := by
      rw [List.count_append, List.count_cons_self, List.count_eq_zero.2 hline, length_splitOn]
    rw [List.append_assoc, List.cons_append, List.splitOn_append_cons_self, hlast, hcount,
      List.getElem?_append_right (Nat.le_refl _), Nat.sub_self]
    rfl

/-! ## Tokens -/

/-- Where a token of a text starts, its place in the line and the character
found there. -/
structure StandsAt (s : List Char) (t : Token) (offset : Nat) : Prop where
  text : t.text.toList <+: s.drop offset
  line : t.position.line.toNat = (s.take offset).count '\n'
  column : t.position.column.toNat = ((s.take offset).rtakeWhile (· ≠ '\n')).length
  shown : ∃ row c, (s.splitOn '\n')[t.position.line.toNat]? = some row ∧
    row[t.position.column.toNat]? = some c ∧ t.text.toList.head? = some c

/-- The offsets of the pieces that become tokens, when the first of the pieces
stands at `offset`. -/
def tokenStarts (offset : Nat) : List (List Char × PieceKind) → List Nat
  | [] => []
  | (w, .trivia) :: pieces => tokenStarts (offset + w.length) pieces
  | (w, .token _) :: pieces => offset :: tokenStarts (offset + w.length) pieces

/-- No token starts with a line feed, because a line feed is a blank. -/
theorem Cut.head_ne_lineFeed {s w : List Char} {kind : TokenKind} (h : Cut s w (.token kind)) :
    ∃ c rest, w = c :: rest ∧ c ≠ '\n' := by
  obtain ⟨c, rest, rfl⟩ := List.exists_cons_of_ne_nil h.ne_nil
  refine ⟨c, rest, rfl, ?_⟩
  rintro rfl
  generalize hw : '\n' :: rest = w at h
  generalize hkind : PieceKind.token kind = piece at h
  cases h with
  | @accepted rule _ hmatch hne =>
    have hstart := Rule.ofStart_eq hmatch.accepted
    rw [← hw] at hstart
    obtain rfl : Rule.blanks = rule := Option.some.inj hstart
    cases hkind
  | comment => cases hkind
  | openComment hmatch hs =>
    rw [← hw, show _ = ['/', '*'] from hmatch.accepted] at hs
    cases hs
  | openQuote => cases hw
  | single hnone hs =>
    obtain ⟨rfl, rfl⟩ := List.cons.inj hw
    exact hnone .blanks ['\n'] ⟨_, hs.symm⟩ ⟨by simp, by simp [isBlank]⟩

theorem standsAt_token {before rest more : List Char} {c : Char} (hc : c ≠ '\n') (kind : TokenKind)
    (hlen : before.length < UInt32.size) :
    StandsAt (before ++ (c :: rest ++ more)) ⟨kind, String.ofList (c :: rest), (Caret.start.advance before).position⟩
      before.length := by
  have hfits := Caret.fits_advance_start hlen
  have hline : (Caret.start.advance before).position.line.toNat = before.count '\n' := by
    rw [hfits.toNat_line, Caret.advance_start]
  have hcolumn : (Caret.start.advance before).position.column.toNat = (before.rtakeWhile (· ≠ '\n')).length := by
    rw [hfits.toNat_column, Caret.advance_start]
  obtain ⟨row, hrow, hfound⟩ := exists_row before hc (rest ++ more)
  refine ⟨?_, ?_, ?_, row, c, ?_, ?_, ?_⟩
  · rw [List.drop_left, String.toList_ofList]
    exact List.prefix_append _ _
  · rw [List.take_left, hline]
  · rw [List.take_left, hcolumn]
  · rw [hline, ← hrow, List.cons_append]
  · rw [hcolumn, hfound]
  · rw [String.toList_ofList, List.head?_cons]

/-- Every piece is read with the caret behind the text before it. -/
theorem Cuts.standsAt {s : List Char} {pieces : List (List Char × PieceKind)} (h : Cuts s pieces)
    (before : List Char) (hlen : (before ++ s).length < UInt32.size) :
    List.Forall₂ (StandsAt (before ++ s)) (tokensFrom (Caret.start.advance before) s)
      (tokenStarts before.length pieces) := by
  induction h generalizing before with
  | nil =>
    rw [tokensFrom_nil]
    exact .nil
  | @cons w more kind pieces hcut _ ih =>
    have hrest := ih (before ++ w) (by simpa using hlen)
    rw [Caret.advance_append, List.length_append, List.append_assoc] at hrest
    rw [tokensFrom_cut hcut]
    cases kind with
    | trivia => exact hrest
    | token kind =>
      obtain ⟨c, rest, rfl, hc⟩ := hcut.head_ne_lineFeed
      refine .cons (standsAt_token hc kind ?_) hrest
      rw [List.length_append] at hlen
      omega

/-- A token has the position of some place in the text. -/
theorem exists_position_of_mem {s : List Char} {caret : Caret} {t : Token} (h : t ∈ tokensFrom caret s) :
    ∃ before, before <+: s ∧ t.position = (caret.advance before).position := by
  obtain ⟨pieces, hpieces⟩ := exists_cuts s
  induction hpieces generalizing caret with
  | nil =>
    rw [tokensFrom_nil] at h
    cases h
  | @cons w more kind pieces hcut _ ih =>
    rw [tokensFrom_cut hcut, List.mem_append] at h
    rcases h with hfirst | hlater
    · obtain ⟨token, -, rfl⟩ := Option.map_eq_some_iff.1 (Option.mem_toList.1 hfirst)
      exact ⟨[], List.nil_prefix, rfl⟩
    · obtain ⟨before, hbefore, hposition⟩ := ih hlater
      refine ⟨w ++ before, (List.prefix_append_right_inj w).2 hbefore, ?_⟩
      rw [hposition, Caret.advance_append]

/-- Later tokens stand later in the text. -/
theorem pairwise_tokensFrom (before : List Char) {s : List Char} (hlen : (before ++ s).length < UInt32.size) :
    (tokensFrom (Caret.start.advance before) s).Pairwise fun t u => t.position.Before u.position := by
  obtain ⟨pieces, hpieces⟩ := exists_cuts s
  induction hpieces generalizing before with
  | nil =>
    rw [tokensFrom_nil]
    exact .nil
  | @cons w more kind pieces hcut _ ih =>
    have hrest := ih (before ++ w) (by simpa using hlen)
    rw [Caret.advance_append] at hrest
    rw [tokensFrom_cut hcut]
    cases kind with
    | trivia => exact hrest
    | token kind =>
      refine List.pairwise_cons.2 ⟨fun u hu => ?_, hrest⟩
      -- The later token stands behind this piece, which is not empty.
      obtain ⟨mid, ⟨more, rfl⟩, hposition⟩ := exists_position_of_mem hu
      have hlater := (Caret.start.advance before).before_advance (s := w ++ mid) (by simp [hcut.ne_nil])
      rw [Caret.advance_append] at hlater
      simp only [List.length_append] at hlen
      rw [hposition]
      refine hlater.position (Caret.fits_advance_start (by omega)) ?_
      rw [← Caret.advance_append, ← Caret.advance_append]
      exact Caret.fits_advance_start (by simp only [List.length_append]; omega)

/-- Positions are exact. A text of fewer than 2^32 characters has one division
into pieces, and each of its tokens stands where its piece starts: its line
counts the line feeds before that place, its column the characters since the
last of them, and in the lines of the text its first character is found there.
Positions grow from each token to all later ones. -/
theorem tokenize_positions (source : String) (h : source.length < 2 ^ 32) :
    ∃ pieces, (∀ pieces', Cuts source.toList pieces' ↔ pieces' = pieces) ∧
      List.Forall₂ (StandsAt source.toList) (tokenize source) (tokenStarts 0 pieces) ∧
      (tokenize source).Pairwise fun t u => t.position.Before u.position := by
  obtain ⟨pieces, hpieces⟩ := exists_cuts source.toList
  have hlen : ([] ++ source.toList).length < UInt32.size := by
    rwa [List.nil_append, String.length_toList]
  rw [tokenize_eq]
  refine ⟨pieces, fun pieces' => ⟨hpieces.unique, ?_⟩, hpieces.standsAt [] hlen, pairwise_tokensFrom [] hlen⟩
  rintro rfl
  exact hpieces

/-- A comment over two lines, a character of two bytes, and two neighbours. -/
theorem tokenize_positions_comment :
    let source := "/* one\n two */ \"é\"+x"
    source.length < 2 ^ 32 ∧
      (∃ pieces, Cuts source.toList pieces ∧
        List.Forall₂ (StandsAt source.toList) (tokenize source) (tokenStarts 0 pieces)) ∧
      (tokenize source).Pairwise (fun t u => t.position.Before u.position) ∧
      (tokenize source).map (·.position) = [⟨1, 8⟩, ⟨1, 11⟩, ⟨1, 12⟩] := by
  intro source
  have hlen : source.length < 2 ^ 32 := by decide
  obtain ⟨pieces, hpieces, hstands, hpairwise⟩ := tokenize_positions source hlen
  exact ⟨hlen, ⟨pieces, (hpieces pieces).2 rfl, hstands⟩, hpairwise, by decide +kernel⟩

end Lexical

end SourceModel
