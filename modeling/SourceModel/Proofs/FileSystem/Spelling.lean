import SourceModel.Config.Basic
import SourceModel.FileSystem.Basic
/-!
# Spellings of a path

Two paths with the same components may be written differently, with more
slashes or dots in the one than in the other. Where both can be read they lead
to the same file, provided each ends in a name: a final slash or dot asks for a
directory. The paths of source files do, because an extension is not empty and
holds no slash. If one of them can be read, the other can too, unless it is
longer than a path may be.
-/

namespace SourceModel

/-! ## Segments -/

namespace Path

/-- The path ends in a name, not in a slash or a dot. -/
structure EndsInName (p : Path) : Prop where
  noSlash : p.hasTrailingSlash = false
  noDot : p.segments.getLast? ≠ some "."

theorem slash_not_mem_splitSlashes (cs : List Char) : ∀ segment ∈ splitSlashes cs, '/' ∉ segment := by
  induction cs with
  | nil => simp [splitSlashes]
  | cons c cs ih =>
    rw [splitSlashes]
    split
    · exact List.forall_mem_cons.2 ⟨List.not_mem_nil, ih⟩
    · rename_i hc
      split
      · simpa using Ne.symm hc
      · rename_i segment segments heq
        rw [heq, List.forall_mem_cons] at ih
        refine List.forall_mem_cons.2 ⟨?_, ih.2⟩
        rw [List.mem_cons, not_or]
        exact ⟨Ne.symm hc, ih.1⟩

/-- Text without a slash belongs to the last segment. -/
theorem splitSlashes_append (xs ys : List Char) (hys : '/' ∉ ys) :
    ∃ segments segment, splitSlashes (xs ++ ys) = segments ++ [segment ++ ys] := by
  induction xs with
  | nil =>
    refine ⟨[], [], ?_⟩
    induction ys with
    | nil => rfl
    | cons y ys ih =>
      rw [List.mem_cons, not_or] at hys
      have hrest := ih hys.2
      simp only [List.nil_append] at hrest ⊢
      rw [splitSlashes, if_neg (Ne.symm hys.1), hrest]
  | cons x xs ih =>
    obtain ⟨segments, segment, heq⟩ := ih
    rw [List.cons_append, splitSlashes, heq]
    by_cases hx : x = '/'
    · exact ⟨[] :: segments, segment, if_pos hx⟩
    · rw [if_neg hx]
      cases segments with
      | nil => exact ⟨[], x :: segment, rfl⟩
      | cons first segments => exact ⟨(x :: first) :: segments, segment, rfl⟩

theorem slash_not_mem_segments {p : Path} {segment : String} (h : segment ∈ p.segments) : segment ≠ "/" := by
  obtain ⟨cs, hcs, rfl⟩ := List.mem_map.1 h
  have hslash := slash_not_mem_splitSlashes _ cs (List.mem_filter.1 hcs).1
  intro heq
  have : cs = ['/'] := by simpa using congrArg String.toList heq
  simp [this] at hslash

/-- Only the components of an absolute path start with the root. -/
theorem isAbsolute_iff (p : Path) : p.isAbsolute = true ↔ p.components.head? = some "/" := by
  unfold components
  by_cases h : p.isAbsolute = true
  · simp [h]
  · cases hs : p.segments with
    | nil => simp [h]
    | cons first rest =>
      have hfirst := slash_not_mem_segments (p := p) (hs ▸ List.mem_cons_self)
      simp [h, hfirst]

/-- Every character but a slash stands in some segment. -/
theorem mem_splitSlashes {c : Char} (hc : c ≠ '/') (cs : List Char) :
    c ∈ cs ↔ ∃ segment ∈ splitSlashes cs, c ∈ segment := by
  induction cs with
  | nil => simp [splitSlashes]
  | cons d cs ih =>
    rw [splitSlashes, List.mem_cons, ih]
    by_cases hd : d = '/'
    · simp [hd, hc]
    · rw [if_neg hd]
      cases splitSlashes cs with
      | nil => simp
      | cons segment segments => simp [or_assoc]

/-- Every character but slashes and dots stands in some component. -/
theorem mem_components {p : Path} {c : Char} (hslash : c ≠ '/') (hdot : c ≠ '.') :
    c ∈ p.text.toList ↔ ∃ name ∈ p.components, c ∈ name.toList := by
  have hsegments : c ∈ p.text.toList ↔ ∃ name ∈ p.segments, c ∈ name.toList := by
    rw [mem_splitSlashes hslash, segments]
    constructor
    · rintro ⟨segment, hsegment, hc⟩
      refine ⟨String.ofList segment, List.mem_map_of_mem (List.mem_filter.2 ⟨hsegment, ?_⟩), ?_⟩
      · simpa using List.ne_nil_of_mem hc
      · rwa [String.toList_ofList]
    · rintro ⟨name, hname, hc⟩
      obtain ⟨segment, hsegment, rfl⟩ := List.mem_map.1 hname
      exact ⟨segment, (List.mem_filter.1 hsegment).1, by rwa [String.toList_ofList] at hc⟩
  -- What the components leave out or add is made of dots and slashes.
  have hkept : ∀ name : String, c ∈ name.toList → name ≠ "." := by
    rintro name hc rfl
    exact hdot (by simpa using hc)
  have hroot : c ∉ "/".toList := by simpa using hslash
  rw [hsegments, components]
  split
  · simp only [List.mem_cons, List.mem_filter, decide_eq_true_eq]
    constructor
    · rintro ⟨name, hname, hc⟩
      exact ⟨name, .inr ⟨hname, hkept name hc⟩, hc⟩
    · rintro ⟨name, rfl | hname, hc⟩
      · exact absurd hc hroot
      · exact ⟨name, hname.1, hc⟩
  · cases p.segments with
    | nil => rfl
    | cons first rest =>
      simp only [List.mem_cons, List.mem_filter, decide_eq_true_eq]
      constructor
      · rintro ⟨name, rfl | hname, hc⟩
        · exact ⟨name, .inl rfl, hc⟩
        · exact ⟨name, .inr ⟨hname, hkept name hc⟩, hc⟩
      · rintro ⟨name, rfl | hname, hc⟩
        · exact ⟨name, .inl rfl, hc⟩
        · exact ⟨name, .inr hname.1, hc⟩

end Path

/-! ## Source files -/

namespace Config

/-- Folding makes letters only. -/
theorem eq_of_toLower_eq {c d : Char} (hd : d.val < 'a'.val) (h : c.toLower = d) : c = d := by
  unfold Char.toLower at h
  split at h
  · rename_i hc
    have hval := congrArg (·.val.toNat) h
    simp only [UInt32.toNat_add, ge_iff_le, UInt32.le_iff_toNat_le, UInt32.lt_iff_toNat_lt] at hval hc hd
    simp at hval hc hd
    omega
  · exact h

theorem text_ne_of_isSource {config : Config} {p : Path} (h : config.isSource p = true) : p.text ≠ "" := by
  intro hempty
  have hnil := (List.isSuffixOf_iff_suffix.1 h).ne_nil (List.cons_ne_nil _ _)
  rw [fold, hempty] at hnil
  exact hnil rfl

/-- A source path is some text, a dot, and an extension that is not empty and
holds no slash. -/
theorem exists_extension {config : Config} {p : Path} (hvalid : config.validate = .ok config)
    (hsource : config.isSource p = true) :
    ∃ stem extension, p.text.toList = stem ++ '.' :: extension ∧ extension ≠ [] ∧ '/' ∉ extension := by
  have hbare : config.hasBareExtension = true := by
    unfold validate at hvalid
    split at hvalid
    · assumption
    · cases hvalid
  obtain ⟨stem, hfold⟩ := List.isSuffixOf_iff_suffix.1 hsource
  obtain ⟨stem, tail, htext, -, htail⟩ := List.map_eq_append_iff.1 hfold.symm
  obtain ⟨dot, extension, rfl, hdot, hextension⟩ := List.map_eq_cons_iff.1 htail
  obtain rfl := eq_of_toLower_eq (by decide) hdot
  refine ⟨stem, extension, htext, ?_, ?_⟩
  · rintro rfl
    have hnil : config.sourceExtension.toList = [] := by simpa [fold] using hextension.symm
    simp [hasBareExtension, hnil] at hbare
  · intro hmem
    have hslash : '/' ∈ fold config.sourceExtension := by
      rw [← hextension]
      exact List.mem_map.2 ⟨'/', hmem, by decide⟩
    obtain ⟨c, hc, hlower⟩ := List.mem_map.1 hslash
    obtain rfl := eq_of_toLower_eq (by decide) hlower
    unfold hasBareExtension at hbare
    cases hext : config.sourceExtension.toList with
    | nil => simp [hext] at hc
    | cons first rest =>
      rw [hext] at hbare hc
      simp_all

theorem endsInName_of_isSource {config : Config} {p : Path} (hvalid : config.validate = .ok config)
    (hsource : config.isSource p = true) : p.EndsInName := by
  obtain ⟨stem, extension, htext, hne, hslash⟩ := exists_extension hvalid hsource
  have hslash' : '/' ∉ '.' :: extension := by simpa using hslash
  constructor
  · unfold Path.hasTrailingSlash
    rw [htext, List.getLast?_append, Option.or_of_isSome (by simp), decide_eq_false_iff_not]
    exact fun hlast => hslash' (List.mem_of_getLast? hlast)
  · obtain ⟨segments, segment, hsplit⟩ := Path.splitSlashes_append stem ('.' :: extension) hslash'
    unfold Path.segments
    rw [htext, hsplit, List.filter_append, List.map_append]
    intro hlast
    have hdot : segment ++ '.' :: extension = ['.'] := by
      simpa using congrArg (Option.map String.toList) hlast
    have := congrArg List.length hdot
    simp only [List.length_append, List.length_cons, List.length_nil] at this
    have := List.length_pos_iff.2 hne
    omega

end Config

/-! ## Resolution -/

/-- The second list is the first without some dots that have a name behind
them. -/
inductive DropsDots : List String → List String → Prop
  | nil : DropsDots [] []
  | name {names names' : List String} (name : String) :
      DropsDots names names' → DropsDots (name :: names) (name :: names')
  | dot {names names' : List String} :
      names' ≠ [] → DropsDots names names' → DropsDots ("." :: names) names'

namespace DropsDots

theorem append (front : List String) {names names' : List String} (h : DropsDots names names') :
    DropsDots (front ++ names) (front ++ names') := by
  induction front with
  | nil => exact h
  | cons name _ ih => exact .name name ih

theorem filter {names : List String} (h : names.getLast? ≠ some ".") :
    DropsDots names (names.filter (· ≠ ".")) := by
  induction names with
  | nil => exact .nil
  | cons name names ih =>
    have hrest : names.getLast? ≠ some "." := by
      intro hlast
      cases names with
      | nil => simp at hlast
      | cons _ _ => exact h hlast
    by_cases hdot : name = "."
    · subst hdot
      have hne : names.filter (· ≠ ".") ≠ [] := by
        -- Something follows the dot, and the last of it is no dot.
        cases hlast : names.getLast? with
        | none =>
          rw [List.getLast?_eq_none_iff] at hlast
          simp [hlast] at h
        | some last =>
          have hmem : last ∈ names.filter (· ≠ ".") :=
            List.mem_filter.2 ⟨List.mem_of_getLast? hlast, by simpa [hlast] using hrest⟩
          exact List.ne_nil_of_mem hmem
      simpa using DropsDots.dot hne (ih hrest)
    · simpa [hdot] using DropsDots.name name (ih hrest)

theorem of_name {name : String} {names names' : List String} (hname : name ≠ ".")
    (h : DropsDots (name :: names) names') : ∃ rest, names' = name :: rest ∧ DropsDots names rest := by
  cases h with
  | name _ hrest => exact ⟨_, rfl, hrest⟩
  | dot => exact absurd rfl hname

/-- Where a name is left to look for, one stays. -/
theorem exists_cons {name : String} {names names' : List String} (h : DropsDots (name :: names) names') :
    ∃ name' rest', names' = name' :: rest' := by
  cases h with
  | name => exact ⟨_, _, rfl⟩
  | dot hne => exact List.exists_cons_of_ne_nil hne

end DropsDots

namespace FileSystem

/-- Dots on the way change nothing. -/
theorem resolveFrom_dropsDots (fs : FileSystem) {links : Nat} {here : Location} {names names' : List String}
    (h : DropsDots names names') : fs.resolveFrom links here names = fs.resolveFrom links here names' := by
  fun_induction FileSystem.resolveFrom fs links here names generalizing names' with
  | case1 =>
    cases h
    rw [resolveFrom]
  | case2 links here name rest entries hdir hclosed =>
    obtain ⟨name', rest', rfl⟩ := h.exists_cons
    rw [resolveFrom, hdir]
    simp [hclosed]
  | case3 links here rest entries hdir hopen ih =>
    cases h with
    | name _ hrest =>
      rw [resolveFrom, hdir]
      simpa [hopen] using ih hrest
    | dot _ hrest => exact ih hrest
  | case4 links here rest entries hdir hopen _ ih =>
    obtain ⟨rest', rfl, hrest⟩ := h.of_name (by decide)
    rw [resolveFrom, hdir]
    simpa [hopen] using ih hrest
  | case5 links here name rest entries hdir hopen hdot hup hlong =>
    obtain ⟨rest', rfl, -⟩ := h.of_name hdot
    rw [resolveFrom, hdir]
    simp [hopen, hdot, hup, hlong]
  | case6 links here name rest entries hdir hopen hdot hup hlong hfound =>
    obtain ⟨rest', rfl, -⟩ := h.of_name hdot
    rw [resolveFrom, hdir]
    simp [hopen, hdot, hup, hlong, hfound]
  | case7 here name rest entries hdir hopen hdot hup hlong target hfound =>
    obtain ⟨rest', rfl, -⟩ := h.of_name hdot
    rw [resolveFrom, hdir]
    simp [hopen, hdot, hup, hlong, hfound]
  | case8 here name rest entries hdir hopen hdot hup hlong target hfound links ih =>
    obtain ⟨rest', rfl, hrest⟩ := h.of_name hdot
    rw [resolveFrom, hdir]
    simpa [hopen, hdot, hup, hlong, hfound] using ih (hrest.append _)
  | case9 links here name rest entries hdir hopen hdot hup hlong entry hnolink hfound ih =>
    obtain ⟨rest', rfl, hrest⟩ := h.of_name hdot
    rw [resolveFrom, hdir]
    simpa [hopen, hdot, hup, hlong, hfound] using ih hrest
  | case10 links here name rest hnodir =>
    obtain ⟨name', rest', rfl⟩ := h.exists_cons
    rw [resolveFrom]
    split
    · exact absurd ‹_› (hnodir _)
    · rfl

/-- A path that ends in a name is resolved by its components. -/
theorem resolveFrom_requests (fs : FileSystem) (links : Nat) (here : Location) {p : Path} (hp : p.EndsInName) :
    fs.resolveFrom links here (requests p) =
      fs.resolveFrom links here (if p.isAbsolute then p.components.tail else p.components) := by
  apply resolveFrom_dropsDots
  rw [requests, if_neg (by simp [hp.noSlash]), Path.components]
  by_cases habs : p.isAbsolute = true
  · rw [if_pos habs, if_pos habs, List.tail_cons]
    exact .filter hp.noDot
  · rw [if_neg habs, if_neg habs]
    have hlast := hp.noDot
    cases hsegments : p.segments with
    | nil => exact .nil
    | cons first rest =>
      refine .name first (.filter fun hdot => ?_)
      rw [hsegments, List.getLast?_cons, hdot] at hlast
      exact hlast rfl

theorem resolveFrom_of_resolve {fs : FileSystem} {p : Path} {here : Location} (h : fs.resolve p = .ok here) :
    ∃ start, (if p.isAbsolute then some [] else fs.workingDir) = some start ∧
      fs.resolveFrom maxLinks start (requests p) = .ok here := by
  have hok : ∀ {found : Except SystemError Location},
      found.mapError IoFailure.system = .ok here → found = .ok here := by
    intro found hfound
    cases found with
    | error => cases hfound
    | ok => cases hfound; rfl
  unfold resolve at h
  split at h
  · cases h
  · have hfound := hok h
    split at hfound
    · cases hfound
    · split at hfound
      · cases hfound
      · split at hfound
        · rename_i habs
          exact ⟨[], if_pos habs, hfound⟩
        · rename_i habs
          split at hfound
          · cases hfound
          · rename_i start hstart
            exact ⟨start, by rw [if_neg habs, hstart], hfound⟩

/-- Two spellings of a path that lead somewhere lead to the same entry. -/
theorem resolve_eq_of_components {fs : FileSystem} {p q : Path} (hp : p.EndsInName) (hq : q.EndsInName)
    (heq : p.components = q.components) {here there : Location} (hhere : fs.resolve p = .ok here)
    (hthere : fs.resolve q = .ok there) : here = there := by
  obtain ⟨start, hstart, hfound⟩ := resolveFrom_of_resolve hhere
  obtain ⟨start', hstart', hfound'⟩ := resolveFrom_of_resolve hthere
  have habs : p.isAbsolute = q.isAbsolute := by
    rw [Bool.eq_iff_iff, Path.isAbsolute_iff, Path.isAbsolute_iff, heq]
  rw [habs, hstart'] at hstart
  cases hstart
  rw [resolveFrom_requests fs _ _ hp, habs, heq, ← resolveFrom_requests fs _ _ hq, hfound'] at hfound
  cases hfound
  rfl

theorem readText_eq_of_components {fs : FileSystem} {p q : Path} (hp : p.EndsInName) (hq : q.EndsInName)
    (heq : p.components = q.components) {text text' : String} (htext : fs.readText p = .ok text)
    (htext' : fs.readText q = .ok text') : text = text' := by
  unfold readText at htext htext'
  cases hhere : fs.resolve p with
  | error => rw [hhere] at htext; cases htext
  | ok here =>
    cases hthere : fs.resolve q with
    | error => rw [hthere] at htext'; cases htext'
    | ok there =>
      obtain rfl := resolve_eq_of_components hp hq heq hhere hthere
      rw [hhere] at htext
      rw [hthere] at htext'
      rw [htext] at htext'
      cases htext'
      rfl

/-- A spelling leads where another one of the same components leads, unless it
is longer than a path may be. -/
theorem resolve_of_components {fs : FileSystem} {p q : Path} (hp : p.EndsInName) (hq : q.EndsInName)
    (heq : p.components = q.components) (hne : p.text ≠ "") (hfits : p.text.utf8ByteSize ≤ maxPathBytes)
    {there : Location} (h : fs.resolve q = .ok there) : fs.resolve p = .ok there := by
  obtain ⟨start, hstart, hfound⟩ := resolveFrom_of_resolve h
  have habs : q.isAbsolute = p.isAbsolute := by
    rw [Bool.eq_iff_iff, Path.isAbsolute_iff, Path.isAbsolute_iff, heq]
  have hnul : p.text.toList.contains '\x00' = q.text.toList.contains '\x00' := by
    rw [Bool.eq_iff_iff, List.contains_iff_mem, List.contains_iff_mem, Path.mem_components (by decide) (by decide),
      Path.mem_components (by decide) (by decide), heq]
  have hfree : q.text.toList.contains '\x00' = false := by
    rw [resolve] at h
    split at h
    · cases h
    · rename_i hq
      simpa using hq
  rw [resolveFrom_requests fs _ _ hq, habs, ← heq, ← resolveFrom_requests fs _ _ hp] at hfound
  rw [habs] at hstart
  rw [resolve, hnul, hfree]
  simp only [Bool.false_eq_true, hne, Nat.not_lt.2 hfits, ↓reduceIte]
  by_cases hroot : p.isAbsolute = true
  · rw [if_pos hroot, Option.some.injEq] at hstart
    rw [if_pos hroot, hstart, hfound]
    rfl
  · rw [if_neg hroot] at hstart
    rw [if_neg hroot, hstart]
    simp only [hfound]
    rfl

theorem readText_of_components {fs : FileSystem} {p q : Path} (hp : p.EndsInName) (hq : q.EndsInName)
    (heq : p.components = q.components) (hne : p.text ≠ "") (hfits : p.text.utf8ByteSize ≤ maxPathBytes)
    {text : String} (h : fs.readText q = .ok text) : fs.readText p = .ok text := by
  unfold readText at h ⊢
  cases hthere : fs.resolve q with
  | error => rw [hthere] at h; cases h
  | ok there =>
    rw [hthere] at h
    rw [resolve_of_components hp hq heq hne hfits hthere]
    exact h

end FileSystem

end SourceModel
