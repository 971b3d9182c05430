import SourceModel.Proofs.Cursor
/-!
# Scans of template lists

A scan looks for a separator behind every element. `Answers` says in natural
numbers what it should find: a list that closes, or the first place where
neither a comma nor a closing bracket stands. Behind a separator that is found
the words go on as numbers do, because the tokens are far fewer than the words.
So only the first sum of a scan can fail to fit. `templateScan_answers` has both
cases: a scan whose first sum fits answers as it should, and one whose first sum
does not fit stops the program.
-/

namespace SourceModel

theorem TextAt.unique {ts : List Token} {i : Nat} {a b : String} (ha : TextAt ts i a) (hb : TextAt ts i b) :
    a = b := by
  obtain ⟨t, ht, rfl⟩ := ha
  obtain ⟨u, hu, rfl⟩ := hb
  rw [ht, Option.some.injEq] at hu
  rw [hu]

theorem textAt_zero_cons (t : Token) (ts : List Token) (text : String) :
    TextAt (t :: ts) 0 text ↔ t.is text = true := by
  simp [TextAt, Token.is]

namespace TemplateScan

/-- How a scan ends: behind `n` elements there are commas, and behind the next
one there is none. -/
inductive Ends (width offset : Nat) (ts : List Token) : TemplateScan → Prop
  | closed (n : Nat) : (∀ i < n, TextAt ts (i * (width + 1)) ",") → TextAt ts (n * (width + 1)) ">" →
      Ends width offset ts (.closed (offset + n * (width + 1) + 1))
  | broken (n : Nat) : (∀ i < n, TextAt ts (i * (width + 1)) ",") → ¬ TextAt ts (n * (width + 1)) "," →
      ¬ TextAt ts (n * (width + 1)) ">" → Ends width offset ts (.broken (offset + n * (width + 1)))

theorem textAt_succ_mul (width i : Nat) (t : Token) (rest : List Token) (text : String) :
    TextAt (t :: rest) ((i + 1) * (width + 1)) text ↔ TextAt (rest.drop width) (i * (width + 1)) text := by
  rw [textAt_drop, show (i + 1) * (width + 1) = width + i * (width + 1) + 1 by rw [Nat.succ_mul]; omega]
  exact Iff.rfl

theorem Ends.comma {width offset : Nat} {t : Token} {rest : List Token} {r : TemplateScan} (hcomma : t.is "," = true)
    (h : Ends width (offset + 1 + width) (rest.drop width) r) : Ends width offset (t :: rest) r := by
  have hcommas : ∀ n, (∀ i < n, TextAt (rest.drop width) (i * (width + 1)) ",") →
      ∀ i < n + 1, TextAt (t :: rest) (i * (width + 1)) "," := by
    intro n hbefore i hi
    cases i with
    | zero => rwa [Nat.zero_mul, textAt_zero_cons]
    | succ i => exact (textAt_succ_mul ..).2 (hbefore i (by omega))
  cases h with
  | closed n hbefore hclose =>
    rw [show offset + 1 + width + n * (width + 1) + 1 = offset + (n + 1) * (width + 1) + 1 by
      rw [Nat.succ_mul]; omega]
    exact .closed (n + 1) (hcommas n hbefore) ((textAt_succ_mul ..).2 hclose)
  | broken n hbefore hnext hclose =>
    rw [show offset + 1 + width + n * (width + 1) = offset + (n + 1) * (width + 1) by rw [Nat.succ_mul]; omega]
    exact .broken (n + 1) (hcommas n hbefore) (mt (textAt_succ_mul ..).1 hnext) (mt (textAt_succ_mul ..).1 hclose)

theorem ends_closed {width offset : Nat} {ts : List Token} (hclose : TextAt ts 0 ">") :
    Ends width offset ts (.closed (offset + 1)) := by
  have hends : Ends width offset ts (.closed (offset + 0 * (width + 1) + 1)) :=
    .closed 0 (fun _ hi => absurd hi (Nat.not_lt_zero _)) (by rwa [Nat.zero_mul])
  rwa [Nat.zero_mul, Nat.add_zero] at hends

theorem ends_broken {width offset : Nat} {ts : List Token} (hnext : ¬ TextAt ts 0 ",") (hclose : ¬ TextAt ts 0 ">") :
    Ends width offset ts (.broken offset) := by
  have hends : Ends width offset ts (.broken (offset + 0 * (width + 1))) :=
    .broken 0 (fun _ hi => absurd hi (Nat.not_lt_zero _)) (by rwa [Nat.zero_mul]) (by rwa [Nat.zero_mul])
  rwa [Nat.zero_mul, Nat.add_zero] at hends

theorem ends_run (width offset : Nat) (ts : List Token) : Ends width offset ts (run width offset ts) := by
  fun_induction run width offset ts with
  | case1 offset => exact ends_broken (by simp [TextAt]) (by simp [TextAt])
  | case2 offset t rest hclose => exact ends_closed ((textAt_zero_cons ..).2 hclose)
  | case3 offset t rest hclose hcomma ih => exact ih.comma hcomma
  | case4 offset t rest hclose hcomma =>
    exact ends_broken (mt (textAt_zero_cons ..).1 hcomma) (mt (textAt_zero_cons ..).1 hclose)

/-- A property that holds up to a number and fails there does so at one number
only. -/
theorem first_unique {p : Nat → Prop} {n m : Nat} (hn : ∀ i < n, p i) (hn' : ¬ p n) (hm : ∀ i < m, p i)
    (hm' : ¬ p m) : n = m := by
  rcases Nat.lt_trichotomy n m with hlt | heq | hgt
  · exact absurd (hm n hlt) hn'
  · exact heq
  · exact absurd (hn m hgt) hm'

theorem Ends.unique {width offset : Nat} {ts : List Token} {r r' : TemplateScan} (h : Ends width offset ts r)
    (h' : Ends width offset ts r') : r = r' := by
  have hcomma : ∀ {n}, TextAt ts (n * (width + 1)) ">" → ¬ TextAt ts (n * (width + 1)) "," :=
    fun hclose hnext => absurd (hclose.unique hnext) (by decide)
  cases h with
  | closed n hbefore hclose =>
    cases h' with
    | closed m hbefore' hclose' => rw [first_unique hbefore (hcomma hclose) hbefore' (hcomma hclose')]
    | broken m hbefore' hnext' hclose' =>
      obtain rfl := first_unique hbefore (hcomma hclose) hbefore' hnext'
      exact absurd hclose hclose'
  | broken n hbefore hnext hclose =>
    cases h' with
    | closed m hbefore' hclose' =>
      obtain rfl := first_unique hbefore hnext hbefore' (hcomma hclose')
      exact absurd hclose' hclose
    | broken m hbefore' hnext' hclose' => rw [first_unique hbefore hnext hbefore' hnext']

end TemplateScan

namespace Cursor

/-! ## What a scan should find -/

/-- Where the separator behind an element is looked for, in a list that begins at
`start`. -/
def separatorAt (width start element : Nat) : Nat :=
  start + element * (width + 1) + width

/-- The answer for a list of elements of this width that begins at `start`. It
closes behind the `n`-th element when there are commas behind those before it
and a closing bracket behind it. It breaks behind the first element that neither
of them follows. -/
structure Answers (c : Cursor) (width start : Nat) (r : TemplateScan) : Prop where
  closed : ∀ stop, r = .closed stop ↔ ∃ n, 1 ≤ n ∧ stop = start + n * (width + 1) ∧
    (∀ i < n - 1, TextAt c.rest (separatorAt width start i) ",") ∧
    TextAt c.rest (separatorAt width start (n - 1)) ">"
  broken : ∀ stop, r = .broken stop ↔ ∃ i, stop = separatorAt width start i ∧
    (∀ j < i, TextAt c.rest (separatorAt width start j) ",") ∧
    ¬ TextAt c.rest (separatorAt width start i) "," ∧ ¬ TextAt c.rest (separatorAt width start i) ">"
  within : ∀ stop, r = .closed stop → stop ≤ c.remaining

theorem textAt_drop_separator (c : Cursor) (width start i : Nat) (text : String) :
    TextAt (c.rest.drop (start + width)) (i * (width + 1)) text ↔ TextAt c.rest (separatorAt width start i) text := by
  rw [textAt_drop, separatorAt, Nat.add_right_comm]

theorem answers_of_ends (c : Cursor) {width start : Nat} {r : TemplateScan}
    (h : TemplateScan.Ends width (start + width) (c.rest.drop (start + width)) r) : c.Answers width start r := by
  have hat := c.textAt_drop_separator width start
  refine ⟨fun stop => ⟨?_, ?_⟩, fun stop => ⟨?_, ?_⟩, ?_⟩
  · rintro rfl
    cases h with
    | closed n hbefore hclose =>
      refine ⟨n + 1, by omega, by rw [Nat.succ_mul]; omega, fun i hi => (hat i _).1 (hbefore i hi), ?_⟩
      exact (hat n _).1 hclose
  · rintro ⟨n, hn, rfl, hbefore, hclose⟩
    obtain ⟨n, rfl⟩ : ∃ m, n = m + 1 := ⟨n - 1, by omega⟩
    refine h.unique ?_
    rw [show start + (n + 1) * (width + 1) = start + width + n * (width + 1) + 1 by rw [Nat.succ_mul]; omega]
    exact .closed n (fun i hi => (hat i _).2 (hbefore i hi)) ((hat n _).2 hclose)
  · rintro rfl
    cases h with
    | broken i hbefore hnext hclose =>
      exact ⟨i, by rw [separatorAt]; omega, fun j hj => (hat j _).1 (hbefore j hj), mt (hat i _).2 hnext,
        mt (hat i _).2 hclose⟩
  · rintro ⟨i, rfl, hbefore, hnext, hclose⟩
    refine h.unique ?_
    rw [separatorAt, Nat.add_right_comm]
    exact .broken i (fun j hj => (hat j _).2 (hbefore j hj)) (mt (hat i _).1 hnext) (mt (hat i _).1 hclose)
  · rintro stop rfl
    cases h with
    | closed n hbefore hclose =>
      obtain ⟨t, ht, -⟩ := hclose
      rw [List.getElem?_drop, getElem?_rest] at ht
      have := (Array.getElem?_eq_some_iff.1 ht).1
      rw [remaining]
      omega

/-! ## The loop -/

section Turns
variable {c : Cursor} (hfits : c.Fits)
include hfits

/-- Where a token is found, the words are less than half used up. -/
theorem toNat_lt_of_check {place : UInt64} {text : String} (h : c.check place text = true) : place.toNat < 2 ^ 63 := by
  obtain ⟨t, ht, -⟩ := (check_iff hfits place text).1 h
  rw [getElem?_rest] at ht
  have := (Array.getElem?_eq_some_iff.1 ht).1
  unfold Fits at hfits
  omega

/-- Behind a token that is found there is a next word. -/
theorem add?_one_of_check {place : UInt64} {text : String} (h : c.check place text = true) :
    Word.add? place 1 ≠ none := by
  intro hnone
  have hlarge := Word.add?_eq_none_iff.1 hnone
  have := toNat_lt_of_check hfits h
  rw [UInt64.size, UInt64.toNat_one] at hlarge
  omega

/-- One turn of a scan over the tokens that are left, in questions to the cursor. -/
theorem run_drop_rest (width : Nat) (place : UInt64) :
    TemplateScan.run width place.toNat (c.rest.drop place.toNat) =
      if c.check place ">" then .closed (place.toNat + 1)
      else if c.check place "," then
        TemplateScan.run width (place.toNat + 1 + width) (c.rest.drop (place.toNat + 1 + width))
      else .broken place.toNat := by
  have hcheck : ∀ text, c.check place text = true ↔ TextAt (c.rest.drop place.toNat) 0 text := by
    intro text
    rw [check_iff hfits, textAt_drop, Nat.add_zero]
  cases hrest : c.rest.drop place.toNat with
  | nil =>
    have hnone : ∀ text, ¬ c.check place text = true := by
      intro text
      rw [hcheck, hrest]
      simp [TextAt]
    rw [if_neg (hnone _), if_neg (hnone _), TemplateScan.run]
  | cons t us =>
    have hfirst : ∀ text, c.check place text = t.is text := by
      intro text
      rw [Bool.eq_iff_iff, hcheck, hrest, textAt_zero_cons]
    have hus : c.rest.drop (place.toNat + 1 + width) = us.drop width := by
      rw [Nat.add_assoc, ← List.drop_drop, hrest, Nat.add_comm 1, List.drop_succ_cons]
    rw [hfirst, hfirst, TemplateScan.run, hus]

/-- A scan in words whose first sum fits is the scan in numbers: all later sums
stand behind a token. -/
theorem scanTemplate_eq_run {width total : UInt64} (hwidth : width.toNat ≤ 2)
    (hroom : total.toNat + width.toNat < UInt64.size) :
    c.scanTemplate width total = .ended (TemplateScan.run width.toNat (total.toNat + width.toNat)
      (c.rest.drop (total.toNat + width.toNat))) := by
  fun_induction scanTemplate c width total with
  | case1 total hnone => exact absurd hroom (Nat.not_lt.2 (Word.add?_eq_none_iff.1 hnone))
  | case2 total place hplace hclose hnone => exact absurd hnone (add?_one_of_check hfits hclose)
  | case3 total place hplace hclose stop hstop =>
    rw [← Word.toNat_of_add? hplace, run_drop_rest hfits, if_pos hclose, Word.toNat_of_add? hstop, UInt64.toNat_one]
  | case4 total place hplace hclose hcomma hnone => exact absurd hnone (add?_one_of_check hfits hcomma)
  | case5 total place hplace hclose hcomma next hnext ih =>
    have hbehind := Word.toNat_of_add? hnext
    have hlow := toNat_lt_of_check hfits hcomma
    rw [UInt64.toNat_one] at hbehind
    rw [ih (by rw [UInt64.size]; omega), ← Word.toNat_of_add? hplace, run_drop_rest hfits, if_neg hclose,
      if_pos hcomma, hbehind]
  | case6 total place hplace hclose hcomma =>
    rw [← Word.toNat_of_add? hplace, run_drop_rest hfits, if_neg hclose, if_neg hcomma]

end Turns

theorem scanTemplate_overflow (c : Cursor) {width total : UInt64} (h : UInt64.size ≤ total.toNat + width.toNat) :
    c.scanTemplate width total = .overflow := by
  rw [scanTemplate]
  split
  · rfl
  · next place hplace =>
    rw [Word.add?_eq_none_iff.2 h] at hplace
    cases hplace

/-- Every scan comes to one outcome. When its first sum fits a word, it ends with
the answer for the list that begins at its start. It stops the program exactly
when the first sum does not fit. -/
theorem templateScan_answers (c : Cursor) (hfits : c.Fits) (scan : UInt64 → ScanOutcome) (width start : UInt64)
    (hscan : (scan, width) ∈ [(c.scanParameters, 2), (c.scanArguments, 1)]) :
    (start.toNat + width.toNat < 2 ^ 64 → ∃ r, scan start = .ended r ∧ c.Answers width.toNat start.toNat r) ∧
    (scan start = .overflow ↔ 2 ^ 64 ≤ start.toNat + width.toNat) := by
  obtain ⟨hwidth, rfl⟩ : width.toNat ≤ 2 ∧ scan = c.scanTemplate width := by
    simp only [List.mem_cons, Prod.mk.injEq, List.not_mem_nil, or_false] at hscan
    rcases hscan with ⟨rfl, rfl⟩ | ⟨rfl, rfl⟩
    · exact ⟨by decide, rfl⟩
    · exact ⟨by decide, rfl⟩
  refine ⟨fun hroom => ⟨_, scanTemplate_eq_run hfits hwidth hroom, c.answers_of_ends (TemplateScan.ends_run ..)⟩,
    fun hstops => ?_, c.scanTemplate_overflow⟩
  refine Nat.not_lt.1 fun hroom => ?_
  rw [scanTemplate_eq_run hfits hwidth hroom] at hstops
  cases hstops

/-- A list of two arguments behind a consumed bracket, and a scan for parameters
that starts at the largest word. -/
theorem templateScan_answers_pair :
    let c := (ofTokens ⟨"x"⟩ [⟨.punctuation, "<", ⟨0, 0⟩⟩, ⟨.identifier, "a", ⟨0, 1⟩⟩, ⟨.punctuation, ",", ⟨0, 2⟩⟩,
      ⟨.identifier, "b", ⟨0, 4⟩⟩, ⟨.punctuation, ">", ⟨0, 5⟩⟩]).consume 1
    c.Fits ∧ c.scanArguments 0 = .ended (.closed 4) ∧ c.Answers 1 0 (.closed 4) ∧
      c.scanParameters Word.largest = .overflow := by
  intro c
  have hfits : c.Fits := by decide
  obtain ⟨hanswers, -⟩ := templateScan_answers c hfits c.scanArguments 1 0 (.tail _ (.head _))
  obtain ⟨-, hstops⟩ := templateScan_answers c hfits c.scanParameters 2 Word.largest (.head _)
  obtain ⟨r, hr, hright⟩ := hanswers (by decide)
  have hclosed : c.scanArguments 0 = .ended (.closed 4) := by decide +kernel
  obtain rfl : TemplateScan.closed 4 = r := ScanOutcome.ended.inj (hclosed.symm.trans hr)
  exact ⟨hfits, hclosed, hright, hstops.2 (by decide)⟩

/-- No token stands behind an argument that starts at the largest word, so its list
breaks there. The scan gives no answer. -/
theorem scanArguments_largest :
    let c := ofTokens ⟨"x"⟩ [⟨.punctuation, ">", ⟨0, 0⟩⟩]
    c.Answers 1 Word.largest.toNat (.broken (2 ^ 64)) ∧ c.scanArguments Word.largest = .overflow := by
  intro c
  have hlargest : Word.largest.toNat + 1 = 2 ^ 64 := by decide
  have hnone : ∀ text, ¬ TextAt (c.rest.drop (Word.largest.toNat + 1)) 0 text := by
    intro text
    rw [hlargest, List.drop_eq_nil_of_le (by decide)]
    simp [TextAt]
  refine ⟨?_, c.scanTemplate_overflow (by decide)⟩
  rw [← hlargest]
  exact c.answers_of_ends (TemplateScan.ends_broken (hnone _) (hnone _))

end Cursor

end SourceModel
