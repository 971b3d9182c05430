import SourceModel.Lexical.Tokenize
import Mathlib.Data.List.DropRight
import Mathlib.Data.String.Basic
/-!
# Line indexes count lines and characters

A caret that walks over a text counts lines and characters one by one. The index
of a text knows only the byte offsets at which its lines start. At the end of
any front part of the text both agree (`position_ofSource`): the lines that start
in the front part come first in the index, bisection finds the last of them, and
the bytes from its start on are the characters of the last line. So tokens can
be cut with a caret at hand (`tokenize_eq`), which is how all else is proved
about them.
-/

namespace SourceModel.Lexical

/-! ## Carets -/

/-- A line and a column, before they are narrowed to a `Position`. -/
structure Caret where
  line : Nat
  column : Nat
  deriving DecidableEq

namespace Caret

def start : Caret := ⟨0, 0⟩

/-- Moves over one character. -/
def step (caret : Caret) (c : Char) : Caret :=
  if c = '\n' then ⟨caret.line + 1, 0⟩ else ⟨caret.line, caret.column + 1⟩

def advance (caret : Caret) (s : List Char) : Caret :=
  s.foldl step caret

def position (caret : Caret) : Position :=
  ⟨UInt32.ofNat caret.line, UInt32.ofNat caret.column⟩

theorem advance_append (caret : Caret) (s t : List Char) : caret.advance (s ++ t) = (caret.advance s).advance t :=
  List.foldl_append

/-- The line counts the line feeds, the column the characters since the last. -/
theorem advance_start (s : List Char) :
    start.advance s = ⟨s.count '\n', (s.rtakeWhile (· ≠ '\n')).length⟩ := by
  induction s using List.reverseRecOn with
  | nil => rfl
  | append_singleton s c ih =>
    rw [advance_append, ih, List.rtakeWhile_concat, List.count_append]
    by_cases hc : c = '\n'
    · simp [advance, step, hc]
    · simp [advance, step, hc]

end Caret

/-- The last line of a text begins at its start or behind a line feed. -/
theorem exists_lastLine (s : List Char) :
    '\n' ∉ s.rtakeWhile (· ≠ '\n') ∧
      (s = s.rtakeWhile (· ≠ '\n') ∨ ∃ front, s = front ++ '\n' :: s.rtakeWhile (· ≠ '\n')) := by
  refine ⟨fun hmem => by simpa using List.mem_rtakeWhile_imp hmem, ?_⟩
  induction s using List.reverseRecOn with
  | nil => exact .inl rfl
  | append_singleton s c ih =>
    rw [List.rtakeWhile_concat]
    by_cases hc : c = '\n'
    · subst hc
      exact .inr ⟨s, by simp⟩
    · rw [if_pos (by simpa using hc)]
      rcases ih with heq | ⟨front, heq⟩
      · exact .inl (congrArg (· ++ [c]) heq)
      · exact .inr ⟨front, by rw [← List.cons_append, ← List.append_assoc, ← heq]⟩

/-! ## Bisection -/

section Bisection
variable {p : Nat → Bool} {xs ys : List Nat} (hxs : ∀ x ∈ xs, p x = true) (hys : ∀ y ∈ ys, ¬ p y = true)
include hxs hys

theorem any_getElem?_iff (i : Nat) : (xs ++ ys).toArray[i]?.any p = true ↔ i < xs.length := by
  rw [List.getElem?_toArray, Option.any_eq_true]
  constructor
  · rintro ⟨x, hx, hpass⟩
    refine Nat.lt_of_not_le fun hle => ?_
    rw [List.getElem?_append_right hle] at hx
    exact hys x (List.mem_of_getElem? hx) hpass
  · intro hi
    exact ⟨xs[i], by rw [List.getElem?_append_left hi, List.getElem?_eq_getElem hi], hxs _ (List.getElem_mem hi)⟩

/-- The place looked for stays between the two ends. -/
theorem partitionPointIn_append {low high : Nat} (hlow : low ≤ xs.length) (hhigh : xs.length ≤ high) :
    partitionPointIn p (xs ++ ys).toArray low high = xs.length := by
  fun_induction partitionPointIn p (xs ++ ys).toArray low high with
  | case1 low high hlt middle hpass ih =>
    exact ih ((any_getElem?_iff hxs hys middle).1 hpass) hhigh
  | case2 low high hlt middle hfail ih =>
    exact ih hlow (Nat.le_of_not_lt (mt (any_getElem?_iff hxs hys middle).2 hfail))
  | case3 low high hle => omega

theorem partitionPoint_append : partitionPoint p (xs ++ ys).toArray = xs.length :=
  partitionPointIn_append hxs hys (Nat.zero_le _) (by simp)

end Bisection

/-! ## Where lines start -/

theorem behindLineFeeds_append (offset : Nat) (s t : List Char) :
    behindLineFeeds offset (s ++ t) = behindLineFeeds offset s ++ behindLineFeeds (offset + String.utf8Len s) t := by
  induction s generalizing offset with
  | nil => rfl
  | cons c s ih =>
    simp only [List.cons_append, behindLineFeeds, ih, String.utf8Len_cons]
    rw [show offset + c.utf8Size + String.utf8Len s = offset + (String.utf8Len s + c.utf8Size) by omega]
    split <;> rfl

theorem length_behindLineFeeds (offset : Nat) (s : List Char) : (behindLineFeeds offset s).length = s.count '\n' := by
  induction s generalizing offset with
  | nil => rfl
  | cons c s ih =>
    rw [behindLineFeeds, List.count_cons]
    split <;> simp [*]

/-- Behind a line feed of a text is behind its start, and not behind its end. -/
theorem bounds_of_mem_behindLineFeeds {offset place : Nat} {s : List Char} (h : place ∈ behindLineFeeds offset s) :
    offset < place ∧ place ≤ offset + String.utf8Len s := by
  induction s generalizing offset with
  | nil => cases h
  | cons c s ih =>
    have hsize := c.utf8Size_pos
    have hlater : place ∈ behindLineFeeds (offset + c.utf8Size) s →
        offset < place ∧ place ≤ offset + String.utf8Len (c :: s) := by
      intro hmem
      obtain ⟨hlow, hhigh⟩ := ih hmem
      rw [String.utf8Len_cons]
      omega
    rw [behindLineFeeds] at h
    split at h
    · rcases List.mem_cons.1 h with rfl | hmem
      · rw [String.utf8Len_cons]
        omega
      · exact hlater hmem
    · exact hlater h

theorem behindLineFeeds_of_not_mem {s : List Char} (h : '\n' ∉ s) (offset : Nat) : behindLineFeeds offset s = [] :=
  List.eq_nil_of_length_eq_zero (by rw [length_behindLineFeeds, List.count_eq_zero.2 h])

/-- The last of the lines that start in a text starts behind the other lines. -/
theorem getElem?_lineStarts {front line : List Char} (hline : '\n' ∉ line)
    (hfront : front = [] ∨ ∃ first, front = first ++ ['\n']) :
    (0 :: behindLineFeeds 0 (front ++ line))[(front ++ line).count '\n']? = some (String.utf8Len front) := by
  rw [behindLineFeeds_append, behindLineFeeds_of_not_mem hline, List.append_nil, List.count_append,
    List.count_eq_zero.2 hline, Nat.add_zero]
  rcases hfront with rfl | ⟨first, rfl⟩
  · rfl
  · have hcount := length_behindLineFeeds 0 first
    rw [behindLineFeeds_append, List.count_append, ← hcount]
    simp [behindLineFeeds, String.utf8Len]

/-! ## Positions -/

namespace LineIndex
variable {source : String} {before after : List Char} (h : source.toList = before ++ after)
include h

/-- The lines that start in a front part of a text come first. -/
theorem lineStarts_ofSource :
    (ofSource source).lineStarts =
      ((0 :: behindLineFeeds 0 before) ++ behindLineFeeds (String.utf8Len before) after).toArray := by
  rw [ofSource, h, behindLineFeeds_append, Nat.zero_add, List.cons_append]

/-- The search finds them all, and no other line. -/
theorem partitionPoint_ofSource :
    partitionPoint (· ≤ String.utf8Len before) (ofSource source).lineStarts = before.count '\n' + 1 := by
  rw [lineStarts_ofSource h, partitionPoint_append, List.length_cons, length_behindLineFeeds]
  · intro start hstart
    rcases List.mem_cons.1 hstart with rfl | hmem
    · simp
    · simpa using (bounds_of_mem_behindLineFeeds hmem).2
  · intro start hstart
    simpa using (bounds_of_mem_behindLineFeeds hstart).1

/-- At the end of a front part of a text, its index counts the lines and characters
that the caret counts. -/
theorem position_ofSource :
    (ofSource source).position (String.utf8Len before) = (Caret.start.advance before).position := by
  have hpoint := partitionPoint_ofSource h
  have htable := lineStarts_ofSource h
  obtain ⟨hline, hbefore⟩ := exists_lastLine before
  rw [Caret.advance_start]
  generalize before.rtakeWhile (· ≠ '\n') = line at hline hbefore ⊢
  obtain ⟨front, rfl, hfront⟩ : ∃ front, before = front ++ line ∧ (front = [] ∨ ∃ first, front = first ++ ['\n']) := by
    rcases hbefore with rfl | ⟨first, rfl⟩
    · exact ⟨[], rfl, .inl rfl⟩
    · exact ⟨first ++ ['\n'], by simp, .inr ⟨first, rfl⟩⟩
  have hstart : (ofSource source).lineStarts.getD ((front ++ line).count '\n') 0 = String.utf8Len front := by
    rw [htable, Array.getD_eq_getD_getElem?, List.getElem?_toArray, List.getElem?_append_left,
      getElem?_lineStarts hline hfront]
    · rfl
    · rw [List.length_cons, length_behindLineFeeds]
      omega
  -- The bytes from there on are the characters of the last line.
  have hslice : String.Pos.Raw.extract source ⟨String.utf8Len front⟩ ⟨String.utf8Len (front ++ line)⟩ =
      String.ofList line := by
    rw [← String.ofList_toList (s := source), h, String.utf8Len_append]
    exact String.extract_of_valid front line after
  have hsource : (ofSource source).source = source := rfl
  rw [position, hpoint, Nat.add_sub_cancel, hstart, hsource, hslice, String.length_ofList]
  rfl

end LineIndex

example : (LineIndex.ofSource "é\n\nx").lineStarts = #[0, 3, 4] ∧ (LineIndex.ofSource "é\n\nx").position 4 = ⟨2, 0⟩ := by
  decide +kernel

/-! ## Tokens -/

/-- The tokens of a text that starts at `caret`. -/
def tokensFrom (caret : Caret) : List Char → List Token
  | [] => []
  | c :: rest =>
    let piece := nextPiece (c :: rest)
    let text := c :: rest.take (piece.length - 1)
    let others := tokensFrom (caret.advance text) (rest.drop (piece.length - 1))
    match piece.kind with
    | .trivia => others
    | .token kind => ⟨kind, String.ofList text, caret.position⟩ :: others
termination_by s => s.length
decreasing_by simp only [List.length_drop, List.length_cons]; omega

/-- The loop keeps the byte offset of what is left, which is where a caret has
arrived. -/
theorem tokensAt_eq {source : String} (before : List Char) {s : List Char} (h : source.toList = before ++ s) :
    tokensAt (.ofSource source) (String.utf8Len before) s = tokensFrom (Caret.start.advance before) s := by
  induction hlength : s.length using Nat.strongRecOn generalizing before s with
  | ind n ih =>
    rw [tokensAt.eq_def, tokensFrom.eq_def]
    cases s with
    | nil => rfl
    | cons c rest =>
      generalize hcut : (nextPiece (c :: rest)).length - 1 = cut
      have hrest : source.toList = (before ++ c :: rest.take cut) ++ rest.drop cut := by
        rw [List.append_assoc, List.cons_append, List.take_append_drop, h]
      have hothers := ih (rest.drop cut).length (by simp at hlength ⊢; omega) _ hrest rfl
      rw [String.utf8Len_append, Caret.advance_append] at hothers
      have hsize : (String.ofList (c :: rest.take cut)).utf8ByteSize = String.utf8Len (c :: rest.take cut) := by
        rw [← String.utf8Len_toList, String.toList_ofList]
      cases hkind : (nextPiece (c :: rest)).kind with
      | trivia => simp only [hkind, hcut, hsize, hothers]
      | token kind => simp only [hkind, hcut, hsize, hothers, LineIndex.position_ofSource h]

theorem tokenize_eq (source : String) : tokenize source = tokensFrom .start source.toList :=
  tokensAt_eq [] rfl

end SourceModel.Lexical
