import SourceModel.Lexical.Rule
import Mathlib.Data.List.TakeWhile
/-!
# The longest prefix of a rule

Each rule's `longest` is what its name says: the prefix of that length belongs
to the rule, unless the length is zero, and no longer prefix does. The
languages of the rules have no word in common, so `best` finds the one rule
that accepts the longest prefix any rule accepts.
-/

namespace SourceModel.Lexical

/-! ## Characters -/

theorem isDigit_iff {c : Char} : isDigit c = true ↔ 48 ≤ c.toNat ∧ c.toNat ≤ 57 := by
  simp only [isDigit, Bool.and_eq_true, decide_eq_true_eq]
  rfl

theorem isIdentifierStart_iff {c : Char} : isIdentifierStart c = true ↔
    (97 ≤ c.toNat ∧ c.toNat ≤ 122) ∨ (65 ≤ c.toNat ∧ c.toNat ≤ 90) ∨ c.toNat = 95 := by
  have hline : c = '_' ↔ c.toNat = 95 := by
    rw [← Char.toNat_inj]
    rfl
  simp only [isIdentifierStart, Bool.and_eq_true, Bool.or_eq_true, decide_eq_true_eq, hline, or_assoc]
  rfl

theorem isBlank_cases {c : Char} (h : isBlank c = true) :
    c = ' ' ∨ c = '\t' ∨ c = '\r' ∨ c = '\n' ∨ c = '\x0c' := by
  simpa [isBlank, or_assoc] using h

/-- No character starts both a name and a number. -/
theorem isIdentifierStart_of_isDigit {c : Char} (h : isDigit c = true) : isIdentifierStart c = false := by
  rw [Bool.eq_false_iff]
  intro hstart
  have := isDigit_iff.1 h
  have := isIdentifierStart_iff.1 hstart
  omega

/-- A class of characters that holds of none of the blanks. -/
theorem isBlank_of_class {p : Char → Bool} (hp : [' ', '\t', '\r', '\n', '\x0c'].any p = false) {c : Char}
    (h : p c = true) : isBlank c = false := by
  rw [Bool.eq_false_iff]
  intro hblank
  rcases isBlank_cases hblank with rfl | rfl | rfl | rfl | rfl <;> simp [h] at hp

/-! ## Runs of characters -/

section Run
variable {p : Char → Bool} {s w : List Char}

theorem take_length_takeWhile : s.take (s.takeWhile p).length = s.takeWhile p :=
  (List.prefix_iff_eq_take.1 (List.takeWhile_prefix p)).symm

theorem length_takeWhile_le : (s.takeWhile p).length ≤ s.length :=
  (List.takeWhile_prefix p).length_le

/-- Characters of a kind are part of the run of them. -/
theorem length_le_takeWhile (hw : ∀ c ∈ w, p c = true) (rest : List Char) :
    w.length ≤ ((w ++ rest).takeWhile p).length := by
  rw [List.takeWhile_append_of_pos hw, List.length_append]
  omega

theorem takeWhile_append_cons (hw : ∀ c ∈ w, p c = true) {c : Char} (hc : p c = false) (rest : List Char) :
    (w ++ c :: rest).takeWhile p = w := by
  rw [List.takeWhile_append_of_pos hw, List.takeWhile_cons_of_neg (by simp [hc]), List.append_nil]

theorem dropWhile_append_cons (hw : ∀ c ∈ w, p c = true) {c : Char} (hc : p c = false) (rest : List Char) :
    (w ++ c :: rest).dropWhile p = c :: rest := by
  rw [List.dropWhile_append_of_pos hw, List.dropWhile_cons_of_neg (by simp [hc])]

end Run

namespace Rule

/-! ## Numbers -/

theorem hexLength_accepts {s : List Char} (h : 0 < hexLength s) :
    hexLength s ≤ s.length ∧
      ∃ digits, s.take (hexLength s) = '0' :: 'x' :: digits ∧ digits ≠ [] ∧ ∀ d ∈ digits, isHexDigit d := by
  unfold hexLength at h ⊢
  split at h
  · rename_i rest
    dsimp only at h ⊢
    split at h
    · exact absurd h (by simp)
    · rename_i hdigits
      rw [if_neg hdigits]
      refine ⟨by simp [length_takeWhile_le], rest.takeWhile isHexDigit, ?_, ?_, ?_⟩
      · rw [List.take_succ_cons, List.take_succ_cons, take_length_takeWhile]
      · exact fun hnil => hdigits (by simp [hnil])
      · exact fun d hd => List.mem_takeWhile_imp hd
  · exact absurd h (by simp)

theorem length_le_hexLength {digits : List Char} (hne : digits ≠ []) (hd : ∀ d ∈ digits, isHexDigit d)
    (rest : List Char) : digits.length + 2 ≤ hexLength ('0' :: 'x' :: (digits ++ rest)) := by
  have hle := length_le_takeWhile hd rest
  have hpos := List.length_pos_iff.2 hne
  simp only [hexLength]
  split <;> omega

theorem decimalLength_accepts {s : List Char} (h : 0 < decimalLength s) :
    decimalLength s ≤ s.length ∧
      ((s.take (decimalLength s) ≠ [] ∧ ∀ d ∈ s.take (decimalLength s), isDigit d) ∨
      ∃ whole fraction, s.take (decimalLength s) = whole ++ '.' :: fraction ∧ whole ≠ [] ∧ fraction ≠ [] ∧
        (∀ d ∈ whole, isDigit d) ∧ ∀ d ∈ fraction, isDigit d) := by
  have hwhole : (s.takeWhile isDigit).length ≠ 0 := by
    intro hzero
    simp [decimalLength, hzero] at h
  have hne : s.takeWhile isDigit ≠ [] := fun hnil => hwhole (by simp [hnil])
  have hdigits : ∀ d ∈ s.takeWhile isDigit, isDigit d := fun d hd => List.mem_takeWhile_imp hd
  -- Without a fraction the number is the run of digits.
  have hrun : (s.takeWhile isDigit).length ≤ s.length ∧ s.take (s.takeWhile isDigit).length ≠ [] ∧
      ∀ d ∈ s.take (s.takeWhile isDigit).length, isDigit d := by
    rw [take_length_takeWhile]
    exact ⟨length_takeWhile_le, hne, hdigits⟩
  simp only [decimalLength, if_neg hwhole]
  split
  · rename_i rest hrest
    split
    · exact ⟨hrun.1, .inl hrun.2⟩
    · rename_i hfraction
      have hs : s = s.takeWhile isDigit ++ '.' :: rest := by rw [← hrest, List.takeWhile_append_dropWhile]
      generalize s.takeWhile isDigit = whole at hs hne hdigits ⊢
      refine ⟨?_, .inr ⟨whole, rest.takeWhile isDigit, ?_, hne, ?_, hdigits, ?_⟩⟩
      · have hle : (rest.takeWhile isDigit).length ≤ rest.length := length_takeWhile_le
        rw [hs, List.length_append, List.length_cons]
        omega
      · rw [hs, Nat.add_assoc, List.take_length_add_append, Nat.add_comm 1, List.take_succ_cons,
          take_length_takeWhile]
      · exact fun hnil => hfraction (by simp [hnil])
      · exact fun d hd => List.mem_takeWhile_imp hd
  · exact ⟨hrun.1, .inl hrun.2⟩

theorem length_le_decimalLength {digits : List Char} (hne : digits ≠ []) (hd : ∀ d ∈ digits, isDigit d)
    (rest : List Char) : digits.length ≤ decimalLength (digits ++ rest) := by
  have hle := length_le_takeWhile hd rest
  have hpos := List.length_pos_iff.2 hne
  simp only [decimalLength]
  split
  · omega
  · split
    · split <;> omega
    · exact hle

theorem length_le_decimalLength_fraction {whole fraction : List Char} (hw : whole ≠ []) (hf : fraction ≠ [])
    (hwd : ∀ d ∈ whole, isDigit d) (hfd : ∀ d ∈ fraction, isDigit d) (rest : List Char) :
    whole.length + 1 + fraction.length ≤ decimalLength (whole ++ '.' :: (fraction ++ rest)) := by
  have hle := length_le_takeWhile hfd rest
  have hwpos := List.length_pos_iff.2 hw
  have hfpos := List.length_pos_iff.2 hf
  simp only [decimalLength, takeWhile_append_cons hwd (c := '.') (by decide),
    dropWhile_append_cons hwd (c := '.') (by decide)]
  rw [if_neg (by omega), if_neg (by omega)]
  omega

/-! ## String literals -/

theorem quotedLength_plain {c : Char} (hquote : c ≠ '"') (hslash : c ≠ '\\') (s : List Char) :
    quotedLength (c :: s) = quotedLength s + 1 := by
  rw [quotedLength.eq_def]
  split <;> simp_all

theorem quotedLength_le (s : List Char) : quotedLength s ≤ s.length := by
  fun_induction quotedLength s <;> simp <;> omega

theorem quotedBody_take (s : List Char) : QuotedBody (s.take (quotedLength s)) := by
  fun_induction quotedLength s with
  | case1 => exact .nil
  | case2 => exact .nil
  | case3 => exact .nil
  | case4 => exact .nil
  | case5 c rest hc ih => exact .escape hc ih
  | case6 c rest hquote hend hslash ih =>
    refine .plain hquote (fun hc => ?_) ih
    cases rest with
    | nil => exact hend hc rfl
    | cons d rest => exact hslash d rest hc rfl

/-- A quoted body is read whole, and reading goes on behind it. -/
theorem quotedLength_append {body : List Char} (h : QuotedBody body) (rest : List Char) :
    quotedLength (body ++ rest) = body.length + quotedLength rest := by
  induction h with
  | nil => simp
  | plain hquote hslash _ ih =>
    rw [List.cons_append, quotedLength_plain hquote hslash, ih, List.length_cons]
    omega
  | escape hc _ ih =>
    rw [List.cons_append, List.cons_append, quotedLength, if_neg hc, ih, List.length_cons, List.length_cons]
    omega

/-! ## Every rule -/

/-- A rule finds a word of its language, or none. -/
theorem accepts_longest (rule : Rule) {s : List Char} (h : 0 < rule.longest s) :
    rule.longest s ≤ s.length ∧ rule.Accepts (s.take (rule.longest s)) := by
  cases rule with
  | blanks =>
    simp only [longest, Accepts] at h ⊢
    rw [take_length_takeWhile]
    exact ⟨length_takeWhile_le, List.length_pos_iff.1 h, fun c hc => List.mem_takeWhile_imp hc⟩
  | lineComment =>
    by_cases hs : ∃ rest, s = '/' :: '/' :: rest
    · obtain ⟨rest, rfl⟩ := hs
      simp only [longest, Accepts, List.take_succ_cons, List.length_cons]
      rw [take_length_takeWhile]
      refine ⟨by simp [length_takeWhile_le], _, rfl, fun hmem => ?_⟩
      simpa using List.mem_takeWhile_imp hmem
    · have hzero : longest .lineComment s = 0 := by
        rw [longest]
        exact fun rest hrest => hs ⟨rest, hrest⟩
      exact absurd h (by simp [hzero])
  | identifier =>
    cases s with
    | nil => exact absurd h (by simp [longest])
    | cons c rest =>
      by_cases hc : isIdentifierStart c = true
      · simp only [longest, if_pos hc, Accepts, List.take_succ_cons, List.length_cons]
        rw [take_length_takeWhile]
        exact ⟨by simp [length_takeWhile_le], c, _, rfl, hc, fun d hd => List.mem_takeWhile_imp hd⟩
      · exact absurd h (by simp [longest, hc])
  | number =>
    -- The longer notation decides, and a tie is settled by either.
    simp only [longest, Accepts] at h ⊢
    rcases Nat.le_total (decimalLength s) (hexLength s) with hle | hle
    · rw [Nat.max_eq_left hle] at h ⊢
      exact ⟨(hexLength_accepts h).1, .inl (hexLength_accepts h).2⟩
    · rw [Nat.max_eq_right hle] at h ⊢
      exact ⟨(decimalLength_accepts h).1, .inr (decimalLength_accepts h).2⟩
  | stringLiteral =>
    by_cases hs : ∃ rest, s = '"' :: rest
    · obtain ⟨rest, rfl⟩ := hs
      simp only [longest] at h ⊢
      -- The body is as long as it can be, so the quote comes right behind it or never.
      by_cases hclose : (rest.drop (quotedLength rest)).head? = some '"'
      · rw [if_pos hclose, List.take_succ_cons, List.take_add_one, ← List.head?_drop, hclose]
        refine ⟨?_, _, rfl, quotedBody_take rest⟩
        obtain ⟨more, hmore⟩ := List.head?_eq_some_iff.1 hclose
        have hlen := congrArg List.length hmore
        rw [List.length_drop, List.length_cons] at hlen
        rw [List.length_cons]
        omega
      · rw [if_neg hclose] at h
        exact absurd h (by simp)
    · have hzero : longest .stringLiteral s = 0 := by
        rw [longest]
        exact fun rest hrest => hs ⟨rest, hrest⟩
      exact absurd h (by simp [hzero])
  | punctuation =>
    rcases s with _ | ⟨c, _ | ⟨d, rest⟩⟩
    · exact absurd h (by simp [longest])
    · by_cases hc : c ∈ singlePunctuation
      · simp [longest, hc, Accepts]
      · exact absurd h (by simp [longest, hc])
    · by_cases hcd : (c, d) ∈ doublePunctuation
      · simp only [longest, if_pos hcd, Accepts]
        exact ⟨by simp, .inr ⟨c, d, by simp, hcd⟩⟩
      · by_cases hc : c ∈ singlePunctuation
        · simp [longest, hcd, hc, Accepts]
        · exact absurd h (by simp [longest, hcd, hc])
  | commentOpening =>
    by_cases hs : ∃ rest, s = '/' :: '*' :: rest
    · obtain ⟨rest, rfl⟩ := hs
      simp [longest, Accepts]
    · have hzero : longest .commentOpening s = 0 := by
        rw [longest]
        exact fun rest hrest => hs ⟨rest, hrest⟩
      exact absurd h (by simp [hzero])

/-- No longer prefix of a text belongs to the rule. -/
theorem length_le_longest {rule : Rule} {w : List Char} (h : rule.Accepts w) (rest : List Char) :
    w.length ≤ rule.longest (w ++ rest) := by
  cases rule with
  | blanks => exact length_le_takeWhile h.2 rest
  | lineComment =>
    obtain ⟨body, rfl, hbody⟩ := h
    have hall : ∀ c ∈ body, decide (c ≠ '\n') = true := by
      intro c hc
      rw [decide_eq_true_eq]
      rintro rfl
      exact hbody hc
    have hle := length_le_takeWhile hall rest
    simp only [List.cons_append, longest, List.length_cons]
    omega
  | identifier =>
    obtain ⟨c, body, rfl, hc, hbody⟩ := h
    have hle := length_le_takeWhile hbody rest
    simp only [List.cons_append, longest, if_pos hc, List.length_cons]
    omega
  | number =>
    rw [longest]
    rcases h with ⟨digits, rfl, hne, hd⟩ | ⟨hne, hd⟩ | ⟨whole, fraction, rfl, hw, hf, hwd, hfd⟩
    · have hle := length_le_hexLength hne hd rest
      simp only [List.cons_append, List.length_cons]
      omega
    · have hle := length_le_decimalLength hne hd rest
      omega
    · have hle := length_le_decimalLength_fraction hw hf hwd hfd rest
      simp only [List.append_assoc, List.cons_append, List.length_append, List.length_cons]
      omega
  | stringLiteral =>
    obtain ⟨body, rfl, hbody⟩ := h
    have hlen : quotedLength (body ++ '"' :: rest) = body.length := by
      rw [quotedLength_append hbody, quotedLength, Nat.add_zero]
    simp only [List.cons_append, List.append_assoc, List.nil_append, longest, hlen, List.drop_left, List.head?_cons,
      if_true, List.length_cons, List.length_append, List.length_nil]
    omega
  | punctuation =>
    rcases h with ⟨c, rfl, hc⟩ | ⟨c, d, rfl, hcd⟩
    · cases rest with
      | nil => simp [longest, hc]
      | cons d rest =>
        simp only [List.cons_append, List.nil_append, longest, hc, if_true, List.length_cons, List.length_nil]
        split <;> omega
    · simp [longest, hcd]
  | commentOpening =>
    rw [show w = ['/', '*'] from h]
    simp [longest]

/-! ## Which rule -/

/-- The only rule that can accept a word, by how the word starts. -/
def ofStart : List Char → Option Rule
  | '/' :: '/' :: _ => some .lineComment
  | '/' :: '*' :: _ => some .commentOpening
  | c :: _ =>
    if isBlank c then some .blanks
    else if isIdentifierStart c then some .identifier
    else if isDigit c then some .number
    else if c = '"' then some .stringLiteral
    else some .punctuation
  | [] => none

theorem ofStart_cons {c : Char} (h : c ≠ '/') (w : List Char) :
    ofStart (c :: w) =
      if isBlank c then some .blanks
      else if isIdentifierStart c then some .identifier
      else if isDigit c then some .number
      else if c = '"' then some .stringLiteral
      else some .punctuation := by
  rw [ofStart.eq_def]
  split <;> simp_all

theorem ofStart_slash {c : Char} (hslash : c ≠ '/') (hstar : c ≠ '*') (w : List Char) :
    ofStart ('/' :: c :: w) = some .punctuation := by
  rw [ofStart.eq_def]
  split
  · simp_all
  · simp_all
  · rename_i heq
    obtain ⟨rfl, -⟩ := List.cons.inj heq
    rfl
  · simp_all

theorem ofStart_digit {c : Char} (h : isDigit c = true) (w : List Char) : ofStart (c :: w) = some .number := by
  have hblank : isBlank c = false := isBlank_of_class (by decide) h
  rw [ofStart_cons (by rintro rfl; revert h; decide), hblank, isIdentifierStart_of_isDigit h, h]
  rfl

theorem ofStart_eq {rule : Rule} {w : List Char} (h : rule.Accepts w) : ofStart w = some rule := by
  cases rule with
  | blanks =>
    obtain ⟨hne, hw⟩ := h
    cases w with
    | nil => exact absurd rfl hne
    | cons c w =>
      have hc := hw c (by simp)
      rw [ofStart_cons (by rintro rfl; revert hc; decide), if_pos hc]
  | lineComment =>
    obtain ⟨body, rfl, -⟩ := h
    rfl
  | identifier =>
    obtain ⟨c, body, rfl, hc, -⟩ := h
    have hblank : isBlank c = false := isBlank_of_class (by decide) hc
    rw [ofStart_cons (by rintro rfl; revert hc; decide), hblank, if_pos hc]
    rfl
  | number =>
    rcases h with ⟨digits, rfl, -, -⟩ | ⟨hne, hw⟩ | ⟨whole, fraction, rfl, hne, -, hw, -⟩
    · rfl
    · cases w with
      | nil => exact absurd rfl hne
      | cons c w => exact ofStart_digit (hw c (by simp)) w
    · cases whole with
      | nil => exact absurd rfl hne
      | cons c whole => exact ofStart_digit (hw c (by simp)) _
  | stringLiteral =>
    obtain ⟨body, rfl, -⟩ := h
    rfl
  | punctuation =>
    have hsingle : singlePunctuation.all (fun c => ofStart [c] = some .punctuation) = true := by decide
    have hdouble : doublePunctuation.all (fun p => ofStart [p.1, p.2] = some .punctuation) = true := by decide
    rcases h with ⟨c, rfl, hc⟩ | ⟨c, d, rfl, hcd⟩
    · exact of_decide_eq_true (List.all_eq_true.1 hsingle c hc)
    · exact of_decide_eq_true (List.all_eq_true.1 hdouble (c, d) hcd)
  | commentOpening =>
    rw [show w = ['/', '*'] from h]
    rfl

/-- No word belongs to two rules. -/
theorem eq_of_accepts {rule rule' : Rule} {w : List Char} (h : rule.Accepts w) (h' : rule'.Accepts w) :
    rule = rule' := by
  have heq := ofStart_eq h
  rw [ofStart_eq h'] at heq
  exact (Option.some.inj heq).symm

theorem ne_nil_of_accepts {rule : Rule} {w : List Char} (h : rule.Accepts w) : w ≠ [] := by
  rintro rfl
  cases ofStart_eq h

/-! ## The best rule -/

/-- One step of the search for the best rule. -/
def consider (s : List Char) (found : Option (Rule × Nat)) (rule : Rule) : Option (Rule × Nat) :=
  let n := rule.longest s
  match found with
  | none => if n = 0 then none else some (rule, n)
  | some (_, m) => if m < n then some (rule, n) else found

/-- What the search knows after these rules. -/
def Found (s : List Char) (rules : List Rule) : Option (Rule × Nat) → Prop
  | none => ∀ rule ∈ rules, rule.longest s = 0
  | some (rule, n) => n = rule.longest s ∧ 0 < n ∧ ∀ rule' ∈ rules, rule'.longest s ≤ n

theorem found_consider {s : List Char} {rules : List Rule} {found : Option (Rule × Nat)} (h : Found s rules found)
    (rule : Rule) : Found s (rules ++ [rule]) (consider s found rule) := by
  rcases found with _ | ⟨best, m⟩
  · simp only [Found] at h
    by_cases hn : rule.longest s = 0
    · simp only [consider, if_pos hn, Found, List.mem_append, List.mem_singleton]
      rintro rule' (hmem | rfl)
      · exact h rule' hmem
      · exact hn
    · simp only [consider, if_neg hn, Found, List.mem_append, List.mem_singleton, true_and]
      refine ⟨by omega, ?_⟩
      rintro rule' (hmem | rfl)
      · rw [h rule' hmem]
        omega
      · exact Nat.le_refl _
  · obtain ⟨hm, hpos, hle⟩ := h
    by_cases hn : m < rule.longest s
    · simp only [consider, if_pos hn, Found, List.mem_append, List.mem_singleton, true_and]
      refine ⟨by omega, ?_⟩
      rintro rule' (hmem | rfl)
      · have := hle rule' hmem
        omega
      · exact Nat.le_refl _
    · simp only [consider, if_neg hn, Found, List.mem_append, List.mem_singleton]
      refine ⟨hm, hpos, ?_⟩
      rintro rule' (hmem | rfl)
      · exact hle rule' hmem
      · omega

theorem found_foldl {s : List Char} (rules : List Rule) {before : List Rule} {found : Option (Rule × Nat)}
    (h : Found s before found) : Found s (before ++ rules) (rules.foldl (consider s) found) := by
  -- The rules seen so far grow by one with each step.
  induction rules generalizing before found with
  | nil => simpa using h
  | cons rule rules ih =>
    rw [List.foldl_cons, List.append_cons]
    exact ih (found_consider h rule)

theorem found_best (s : List Char) : Found s all (best s) := by
  have hnone : Found s [] none := by simp [Found]
  exact found_foldl all hnone

end Rule

/-- The longest prefix of a text that any rule accepts, with the rule. -/
structure LongestMatch (s : List Char) (rule : Rule) (w : List Char) : Prop where
  isPrefix : w <+: s
  accepted : rule.Accepts w
  length_le : ∀ {rule' : Rule} {w' : List Char}, w' <+: s → rule'.Accepts w' → w'.length ≤ w.length

namespace Rule

theorem mem_all (rule : Rule) : rule ∈ all := by
  cases rule <;> decide

theorem longestMatch_of_best {s : List Char} {rule : Rule} {n : Nat} (h : best s = some (rule, n)) :
    n ≤ s.length ∧ LongestMatch s rule (s.take n) := by
  have hfound := found_best s
  rw [h] at hfound
  obtain ⟨rfl, hpos, hle⟩ := hfound
  obtain ⟨hlen, haccepts⟩ := accepts_longest rule hpos
  refine ⟨hlen, List.take_prefix _ _, haccepts, ?_⟩
  rintro rule' w' ⟨rest, rfl⟩ hw'
  have := length_le_longest hw' rest
  have := hle rule' (mem_all rule')
  rw [List.length_take]
  omega

theorem best_eq_none_iff {s : List Char} :
    best s = none ↔ ∀ (rule : Rule) (w : List Char), w <+: s → ¬ rule.Accepts w := by
  constructor
  · rintro h rule w ⟨rest, rfl⟩ hw
    have hfound := found_best (w ++ rest)
    rw [h] at hfound
    have := length_le_longest hw rest
    have := hfound rule (mem_all rule)
    have := List.length_pos_iff.2 (ne_nil_of_accepts hw)
    omega
  · intro h
    cases hbest : best s with
    | none => rfl
    | some found =>
      obtain ⟨rule, n⟩ := found
      obtain ⟨-, hmatch⟩ := longestMatch_of_best hbest
      exact absurd hmatch.accepted (h rule _ hmatch.isPrefix)

/-- The search finds the one longest match. -/
theorem best_of_longestMatch {s : List Char} {rule : Rule} {w : List Char} (h : LongestMatch s rule w) :
    best s = some (rule, w.length) := by
  cases hbest : best s with
  | none => exact absurd h.accepted (best_eq_none_iff.1 hbest rule w h.isPrefix)
  | some found =>
    obtain ⟨rule', n⟩ := found
    obtain ⟨hlen, hmatch⟩ := longestMatch_of_best hbest
    -- Each is a longest match, so neither is longer than the other.
    have hle := h.length_le hmatch.isPrefix hmatch.accepted
    have hge := hmatch.length_le h.isPrefix h.accepted
    rw [List.length_take, Nat.min_eq_left hlen] at hle hge
    have hn : n = w.length := by omega
    subst hn
    rw [← List.prefix_iff_eq_take.1 h.isPrefix] at hmatch
    rw [eq_of_accepts h.accepted hmatch.accepted]

end Rule

end SourceModel.Lexical
