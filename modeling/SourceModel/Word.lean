/-!
# Word addition that does not wrap

Cursors and offsets are 64-bit words. Two additions keep their sums honest: one
answers nothing when the sum does not fit, the other stops at the largest word.
-/

namespace SourceModel.Word

def largest : UInt64 := 0xFFFFFFFFFFFFFFFF

/-- The sum, if it fits a word. -/
def add? (a b : UInt64) : Option UInt64 :=
  if a.toNat + b.toNat < UInt64.size then some (a + b) else none

/-- The sum, or the largest word when it does not fit. -/
def addSaturating (a b : UInt64) : UInt64 :=
  (add? a b).getD largest

theorem toNat_of_add? {a b c : UInt64} (h : add? a b = some c) : c.toNat = a.toNat + b.toNat := by
  unfold add? at h
  split at h
  · cases h
    rw [UInt64.toNat_add]
    exact Nat.mod_eq_of_lt (by simpa using ‹_›)
  · cases h

theorem add?_eq_none_iff {a b : UInt64} : add? a b = none ↔ UInt64.size ≤ a.toNat + b.toNat := by
  unfold add?
  split <;> simp <;> omega

theorem toNat_addSaturating (a b : UInt64) :
    (addSaturating a b).toNat = min (a.toNat + b.toNat) (UInt64.size - 1) := by
  unfold addSaturating
  cases h : add? a b with
  | some c =>
    rw [Option.getD_some, toNat_of_add? h]
    have := c.toNat_lt_size
    rw [toNat_of_add? h] at this
    omega
  | none =>
    have hle := add?_eq_none_iff.1 h
    have hl : largest.toNat = UInt64.size - 1 := by decide
    rw [Option.getD_none, hl]
    omega

end SourceModel.Word
