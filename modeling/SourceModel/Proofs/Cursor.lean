import SourceModel.Cursor
import Mathlib.Data.UInt
/-!
# Cursors count as numbers do

A cursor keeps a word and forgets what was consumed past the end, yet it looks
ahead as if all counts had been added up as natural numbers. `StandsAfter` is
the invariant: the word is the total, or the number of tokens when the total is
larger. Moving forward keeps it, and every question to a cursor is answered
from it, so the steps in which tokens are consumed do not matter.
-/

namespace SourceModel

/-- The token at an index has this text. -/
def TextAt (ts : List Token) (i : Nat) (text : String) : Prop :=
  ∃ t, ts[i]? = some t ∧ t.text = text

theorem textAt_drop (ts : List Token) (n i : Nat) (text : String) :
    TextAt (ts.drop n) i text ↔ TextAt ts (n + i) text := by
  rw [TextAt, TextAt, List.getElem?_drop]

namespace Cursor

/-- There are fewer tokens than half the words, as memory cannot hold more. -/
def Fits (c : Cursor) : Prop :=
  c.tokens.size < 2 ^ 63

instance (c : Cursor) : Decidable c.Fits :=
  inferInstanceAs (Decidable (c.tokens.size < 2 ^ 63))

/-! ## Looking ahead -/

theorem getElem?_rest (c : Cursor) (places : Nat) : c.rest[places]? = c.tokens[c.next.toNat + places]? := by
  rw [rest, List.getElem?_drop, Array.getElem?_toList]

/-- An offset whose sum with the cursor does not fit a word lies past the end. -/
theorem peek?_eq {c : Cursor} (hfits : c.Fits) (offset : UInt64) : c.peek? offset = c.rest[offset.toNat]? := by
  rw [peek?, getElem?_rest]
  cases hsum : Word.add? c.next offset with
  | some i => rw [Option.bind_some, Word.toNat_of_add? hsum]
  | none =>
    have hlarge := Word.add?_eq_none_iff.1 hsum
    unfold Fits at hfits
    rw [Option.bind_none, Array.getElem?_eq_none (by rw [UInt64.size] at hlarge; omega)]

theorem check_iff {c : Cursor} (hfits : c.Fits) (offset : UInt64) (text : String) :
    c.check offset text = true ↔ TextAt c.rest offset.toNat text := by
  rw [check, peek?_eq hfits, Option.any_eq_true, TextAt]
  simp only [Token.is, decide_eq_true_eq]

/-! ## Moving forward -/

theorem next_consume {c : Cursor} (hfits : c.Fits) (count : UInt64) :
    (c.consume count).next.toNat = min (c.next.toNat + count.toNat) c.tokens.size := by
  unfold Fits at hfits
  have hsize : (UInt64.ofNat c.tokens.size).toNat = c.tokens.size :=
    UInt64.toNat_ofNat_of_lt' (by rw [UInt64.size]; omega)
  rw [consume, UInt64.toNat_min, hsize, Word.toNat_addSaturating, UInt64.size]
  omega

/-- The cursor stands where it would after consuming `total` of the tokens. -/
structure StandsAfter (c : Cursor) (file : Path) (tokens : List Token) (total : Nat) : Prop where
  file_eq : c.file = file
  tokens_eq : c.tokens = tokens.toArray
  next_eq : c.next.toNat = min total tokens.length

section Standing
variable {c : Cursor} {file : Path} {tokens : List Token} {total : Nat}

theorem standsAfter_ofTokens (file : Path) (tokens : List Token) : (ofTokens file tokens).StandsAfter file tokens 0 :=
  ⟨rfl, rfl, (Nat.zero_min _).symm⟩

theorem StandsAfter.fits (h : c.StandsAfter file tokens total) (hlength : tokens.length < 2 ^ 63) : c.Fits := by
  rw [Fits, h.tokens_eq, List.size_toArray]
  exact hlength

theorem StandsAfter.consume (h : c.StandsAfter file tokens total) (hlength : tokens.length < 2 ^ 63)
    (count : UInt64) : (c.consume count).StandsAfter file tokens (total + count.toNat) where
  file_eq := h.file_eq
  tokens_eq := h.tokens_eq
  next_eq := by
    rw [next_consume (h.fits hlength), h.next_eq, h.tokens_eq, List.size_toArray]
    omega

theorem StandsAfter.foldl_consume (h : c.StandsAfter file tokens total) (hlength : tokens.length < 2 ^ 63)
    (counts : List UInt64) :
    (counts.foldl Cursor.consume c).StandsAfter file tokens (total + (counts.map UInt64.toNat).sum) := by
  induction counts generalizing c total with
  | nil => exact h
  | cons count counts ih =>
    rw [List.foldl_cons, List.map_cons, List.sum_cons, ← Nat.add_assoc]
    exact ih (h.consume hlength count)

/-- The total says all there is to say about a cursor. -/
theorem StandsAfter.unique {c' : Cursor} (h : c.StandsAfter file tokens total)
    (h' : c'.StandsAfter file tokens total) : c = c' := by
  obtain ⟨file₁, tokens₁, next₁⟩ := c
  obtain ⟨file₂, tokens₂, next₂⟩ := c'
  obtain rfl : file₁ = file₂ := h.file_eq.trans h'.file_eq.symm
  obtain rfl : tokens₁ = tokens₂ := h.tokens_eq.trans h'.tokens_eq.symm
  obtain rfl : next₁ = next₂ := UInt64.toNat_inj.1 (h.next_eq.trans h'.next_eq.symm)
  rfl

theorem StandsAfter.rest_eq (h : c.StandsAfter file tokens total) : c.rest = tokens.drop total := by
  rw [rest, h.tokens_eq, h.next_eq]
  rcases Nat.le_total total tokens.length with hle | hle
  · rw [Nat.min_eq_left hle]
  · rw [Nat.min_eq_right hle, List.drop_eq_nil_of_le (Nat.le_refl _), List.drop_eq_nil_of_le hle]

theorem StandsAfter.remaining_eq (h : c.StandsAfter file tokens total) :
    c.remaining = tokens.length - min tokens.length total := by
  rw [remaining, h.tokens_eq, h.next_eq, List.size_toArray, Nat.min_comm]

theorem StandsAfter.isEmpty_iff (h : c.StandsAfter file tokens total) :
    c.isEmpty = true ↔ tokens.length ≤ total := by
  rw [isEmpty, h.tokens_eq, h.next_eq, List.size_toArray, decide_eq_true_eq]
  omega

end Standing

/-- After any counts have been consumed one by one, with their sum taken as a
natural number: an offset shows the token that many places past the sum, and
none past the end; the tokens past the sum remain; and the two questions about
a token's text and place are answered from that token. Other counts with the
same sum leave the same cursor. -/
theorem view_of_counts (file : Path) (tokens : List Token) (hlength : tokens.length < 2 ^ 63) (counts : List UInt64) :
    let c := counts.foldl Cursor.consume (.ofTokens file tokens)
    let total := (counts.map UInt64.toNat).sum
    (∀ offset : UInt64, c.peek? offset = tokens[total + offset.toNat]?) ∧
    c.remaining = tokens.length - min tokens.length total ∧
    (c.isEmpty = true ↔ tokens.length ≤ total) ∧
    (∀ (offset : UInt64) (text : String),
      c.check offset text = true ↔ TextAt tokens (total + offset.toNat) text) ∧
    (∀ offset : UInt64, c.positionAt offset = (tokens[total + offset.toNat]?).elim ⟨0, 0⟩ (·.position)) ∧
    ∀ counts' : List UInt64, (counts'.map UInt64.toNat).sum = total →
      counts'.foldl Cursor.consume (.ofTokens file tokens) = c := by
  intro c total
  have hstands : ∀ counts : List UInt64, (counts.foldl Cursor.consume (.ofTokens file tokens)).StandsAfter file tokens
      (counts.map UInt64.toNat).sum := by
    intro counts
    simpa using (standsAfter_ofTokens file tokens).foldl_consume hlength counts
  have hc : c.StandsAfter file tokens total := hstands counts
  have hpeek : ∀ offset : UInt64, c.peek? offset = tokens[total + offset.toNat]? := fun offset => by
    rw [peek?_eq (hc.fits hlength), hc.rest_eq, List.getElem?_drop]
  refine ⟨hpeek, hc.remaining_eq, hc.isEmpty_iff, fun offset text => ?_, fun offset => ?_, fun counts' hsum => ?_⟩
  · rw [check_iff (hc.fits hlength), hc.rest_eq, textAt_drop]
  · rw [positionAt, hpeek]
  · exact (hsum ▸ hstands counts').unique hc

/-- Counts and offsets that would wrap: a step of one token, then one to the end
and past every word. -/
theorem view_of_counts_largest :
    let tokens : List Token := [⟨.identifier, "a", ⟨0, 0⟩⟩, ⟨.identifier, "b", ⟨0, 2⟩⟩]
    let first := [1].foldl Cursor.consume (.ofTokens ⟨"x"⟩ tokens)
    let last := [1, Word.largest].foldl Cursor.consume (.ofTokens ⟨"x"⟩ tokens)
    tokens.length < 2 ^ 63 ∧ first.peek? 0 = some ⟨.identifier, "b", ⟨0, 2⟩⟩ ∧ first.peek? Word.largest = none ∧
      last.peek? Word.largest = none ∧ last.isEmpty = true := by
  intro tokens first last
  have hlength : tokens.length < 2 ^ 63 := by decide
  have hfirst := (view_of_counts ⟨"x"⟩ tokens hlength [1]).1
  obtain ⟨hlast, -, hempty, -⟩ := view_of_counts ⟨"x"⟩ tokens hlength [1, Word.largest]
  have hpast : tokens.length ≤ ([1, Word.largest].map UInt64.toNat).sum := by decide
  refine ⟨hlength, (hfirst 0).trans rfl, (hfirst Word.largest).trans rfl, ?_, hempty.2 hpast⟩
  exact (hlast Word.largest).trans (List.getElem?_eq_none (Nat.le_trans hpast (Nat.le_add_right ..)))

end Cursor

end SourceModel
