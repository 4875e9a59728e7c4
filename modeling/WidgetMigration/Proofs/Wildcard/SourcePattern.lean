import WidgetMigration.Migration.Discovery
import WidgetMigration.Proofs.Path.Spelling
import WidgetMigration.Proofs.Wildcard.Reading

/-!
# The pattern for source files

The pattern of a target is read as one part for each part of the base directory between slashes, a
recursive part, and a part for the names that end in a dot and the extension (`parse_pattern`). For
this the extension must not hold what means something in a pattern. The parts of a base that is
spelled in the plain way are its components (`baseParts_text`).
-/

namespace WidgetMigration.Wildcard

/-- Whether some characters can be the extension of source files. -/
def IsExtension (e : List Char) : Prop :=
  ∀ c ∈ e, c ≠ '?' ∧ c ≠ '*' ∧ c ≠ '[' ∧ c ≠ '/'

/-- Whether some characters stand for themselves in a pattern. -/
def IsPlain (s : List Char) : Prop :=
  ∀ c ∈ s, c ≠ '?' ∧ c ≠ '*' ∧ c ≠ '['

/-- The part for the names that end in a dot and an extension. -/
def sourcePart (e : List Char) : Part :=
  .wildcard (.anyRun :: .char '.' :: e.map .char)

/-- How this part is spelled. -/
def sourceText (e : List Char) : List Char := '*' :: '.' :: e

variable {e : List Char}

/-! ## Reading the parts -/

theorem isExtension_dart : IsExtension "dart".toList := by
  intro c hc
  have hcases : c ∈ ['d', 'a', 'r', 't'] := hc
  simp only [List.mem_cons, List.not_mem_nil, or_false] at hcases
  rcases hcases with rfl | rfl | rfl | rfl <;> decide

theorem IsExtension.isPlain (h : IsExtension e) : IsPlain e :=
  fun c hc => ⟨(h c hc).1, (h c hc).2.1, (h c hc).2.2.1⟩

theorem readTokens_source (h : IsPlain e) (position : Nat) (before : Option Char) :
    readTokens position before (sourceText e) = .ok (.anyRun :: .char '.' :: e.map .char) := by
  have hdot : IsPlain ('.' :: e) := List.forall_mem_cons.mpr ⟨by decide, h⟩
  rw [sourceText, readTokens_star (by decide), readTokens_plain_run hdot]
  rfl

theorem read_source (h : IsPlain e) : Part.read (sourceText e) = .ok (sourcePart e) := by
  have hnone : (Token.anyRun :: .char '.' :: e.map Token.char).contains .anyDirectories = false := by
    rw [← Bool.not_eq_true, List.contains_iff_mem]
    simp
  rw [Part.read, readTokens_source h]
  simp only [Except.map, Part.ofTokens, literal?, hnone, Bool.false_eq_true, if_false]
  rfl

theorem readTokens_recursive (s : List Char) (position : Nat) :
    readTokens position (some '/') ('*' :: '*' :: '/' :: s) =
      (readTokens (position + 3) (some '/') s).map (.anyDirectories :: ·) := by
  rw [readTokens]
  simp

theorem read_recursive : Part.read ['*', '*'] = .ok .recursive := by
  rw [Part.read, readTokens]
  rfl

/-- The whole pattern is read without a fault. -/
theorem readTokens_pattern (h : IsPlain e) (base : List Char) :
    ∃ tokens, readTokens 0 none (escaped base ++ '/' :: '*' :: '*' :: '/' :: sourceText e) =
      .ok tokens := by
  obtain ⟨position, before, hbase⟩ :=
    readTokens_escape base ('/' :: '*' :: '*' :: '/' :: sourceText e) 0 none
  rw [hbase, readTokens_plain (by decide) (by decide) (by decide), readTokens_recursive,
    readTokens_source h]
  exact ⟨_, rfl⟩

theorem readParts_escape (components : List (List Char)) (rest : List (List Char)) :
    readParts (components.map escaped ++ rest) =
      (readParts rest).map (components.map partOf ++ ·) := by
  induction components with
  | nil =>
    show readParts rest = (readParts rest).map id
    cases readParts rest <;> rfl
  | cons c components ih =>
    rw [List.map_cons, List.cons_append, readParts, read_escape]
    simp only [ih, map_map_except, List.map_cons, List.cons_append]

theorem readParts_pattern (h : IsExtension e) (components : List (List Char)) :
    readParts (components.map escaped ++ [['*', '*'], sourceText e]) =
      .ok (components.map partOf ++ [.recursive, sourcePart e]) := by
  rw [readParts_escape, readParts, read_recursive]
  simp only [readParts, read_source h.isPlain]
  rfl

theorem partOf_ne_recursive (c : List Char) : partOf c ≠ .recursive := by
  unfold partOf
  split
  · exact Part.noConfusion
  · exact Part.noConfusion

/-- Only one part is recursive. -/
theorem mergeRecursive_pattern (components : List (List Char)) (e : List Char) :
    mergeRecursive (components.map partOf ++ [.recursive, sourcePart e]) =
      components.map partOf ++ [.recursive, sourcePart e] := by
  induction components with
  | nil => rfl
  | cons c components ih =>
    rw [List.map_cons, List.cons_append, mergeRecursive, ih]
    exact fun _ hpart => absurd hpart (partOf_ne_recursive c)

/-! ## The pattern as it is spelled -/

theorem escaped_append (s s' : List Char) : escaped (s ++ s') = escaped s ++ escaped s' :=
  List.flatMap_append

theorem slash_not_mem_escaped {s : List Char} (h : '/' ∉ s) : '/' ∉ escaped s := by
  intro hmem
  obtain ⟨c, hc, hslash⟩ := List.mem_flatMap.mp hmem
  have hne : '/' ≠ c := fun heq => h (heq ▸ hc)
  cases hspecial : isSpecial c <;> simp [hspecial, hne] at hslash

theorem escaped_joinWith (components : List (List Char)) :
    escaped (joinWith '/' components) = joinWith '/' (components.map escaped) := by
  induction components with
  | nil => rfl
  | cons c components ih =>
    cases components with
    | nil => rfl
    | cons next components =>
      show escaped (c ++ '/' :: joinWith '/' (next :: components)) = _
      rw [escaped_append, escaped_cons, ih]
      rfl

/-- An escaped text has the slashes of the text. -/
theorem splitOn_escaped (s : List Char) :
    splitOn '/' (escaped s) = (splitOn '/' s).map escaped := by
  have hparts : ∀ part ∈ (splitOn '/' s).map escaped, '/' ∉ part := by
    intro part hpart
    obtain ⟨plain, hplain, rfl⟩ := List.mem_map.mp hpart
    exact slash_not_mem_escaped (not_mem_of_mem_splitOn hplain)
  have hne : (splitOn '/' s).map escaped ≠ [] := fun h =>
    splitOn_ne_nil '/' s (List.map_eq_nil_iff.mp h)
  conv_lhs => rw [← joinWith_splitOn '/' s, escaped_joinWith]
  exact splitOn_joinWith hne hparts

theorem toList_pattern (base extension : String) :
    (Target.pattern base extension).toList =
      escaped base.toList ++ '/' :: '*' :: '*' :: '/' :: sourceText extension.toList := by
  rw [Target.pattern, String.toList_append, String.toList_append, toList_escape]
  simp [sourceText]

/-- The pattern of a target does not end in a slash. -/
theorem getLast?_pattern (base : String) {extension : String} (h : IsExtension extension.toList) :
    ((Target.pattern base extension).toList.getLast? == some '/') = false := by
  have hne : '.' :: extension.toList ≠ [] := List.cons_ne_nil _ _
  have hsplit : (Target.pattern base extension).toList =
      (escaped base.toList ++ ['/', '*', '*', '/', '*']) ++ '.' :: extension.toList := by
    rw [toList_pattern]
    simp [sourceText]
  rw [hsplit, List.getLast?_append_of_ne_nil _ hne, beq_eq_false_iff_ne]
  intro hlast
  rcases List.mem_cons.mp (List.mem_of_getLast? hlast) with hdot | hmem
  · exact absurd hdot (by decide)
  · exact (h _ hmem).2.2.2 rfl

/-- The texts between the slashes of a base, behind the first slash if it is absolute. -/
def baseParts (base : List Char) : List (List Char) :=
  splitOn '/' (if base.head? == some '/' then base.drop 1 else base)

/-- A pattern begins with a slash if its base does. -/
theorem head?_escaped_append {base : List Char} (hne : base ≠ []) (rest : List Char) :
    ((escaped base ++ rest).head? == some '/') = (base.head? == some '/') := by
  obtain ⟨c, base, rfl⟩ := List.exists_cons_of_ne_nil hne
  rw [escaped_cons]
  cases hspecial : isSpecial c with
  | false => rfl
  | true =>
    have hc : c ≠ '/' := by
      rintro rfl
      cases hspecial
    show (some '[' == some '/') = (some c == some '/')
    simp [hc]

theorem drop_escaped_append {base : List Char} (hhead : (base.head? == some '/') = true)
    (rest : List Char) : (escaped base ++ rest).drop 1 = escaped (base.drop 1) ++ rest := by
  obtain ⟨base, rfl⟩ := List.head?_eq_some_iff.mp (beq_iff_eq.mp hhead)
  rfl

theorem slash_not_mem_sourceText (h : IsExtension e) : '/' ∉ sourceText e := by
  intro hmem
  rcases List.mem_cons.mp hmem with hstar | hmem
  · exact absurd hstar (by decide)
  rcases List.mem_cons.mp hmem with hdot | hmem
  · exact absurd hdot (by decide)
  · exact (h _ hmem).2.2.2 rfl

/-- The texts between the slashes of a pattern. -/
theorem partTexts_pattern (h : IsExtension e) (base : List Char) :
    partTexts (escaped base ++ '/' :: '*' :: '*' :: '/' :: sourceText e) =
      (splitOn '/' base).map escaped ++ [['*', '*'], sourceText e] := by
  have hstars : splitOn '/' ('*' :: '*' :: '/' :: sourceText e) = [['*', '*'], sourceText e] := by
    have hsplit := @splitOn_append_cons _ _ '/' ['*', '*'] (sourceText e)
    rw [splitOn_of_not_mem (slash_not_mem_sourceText h)] at hsplit
    exact hsplit
  unfold partTexts
  rw [splitOn_append_cons, splitOn_escaped, hstars]
  have hlast : ((splitOn '/' base).map escaped ++ [['*', '*'], sourceText e]).getLast? =
      some (sourceText e) := by simp
  simp only [hlast]
  exact if_neg fun hnil => by cases hnil

/-- **How the pattern of a target is read**: a part for each part of the base, which may be empty, and
then the source files at any depth. -/
theorem parse_pattern {base extension : String} (hne : base.toList ≠ [])
    (h : IsExtension extension.toList) :
    Pattern.parse (Target.pattern base extension) =
      .ok ⟨base.toList.head? == some '/',
        (baseParts base.toList).map partOf ++ [.recursive, sourcePart extension.toList], false⟩ := by
  obtain ⟨tokens, htokens⟩ := readTokens_pattern h.isPlain base.toList
  rw [← toList_pattern] at htokens
  have habsolute : ((Target.pattern base extension).toList.head? == some '/') =
      (base.toList.head? == some '/') := by
    rw [toList_pattern, head?_escaped_append hne]
  have hrest : (if base.toList.head? == some '/' then (Target.pattern base extension).toList.drop 1
      else (Target.pattern base extension).toList) =
        escaped (if base.toList.head? == some '/' then base.toList.drop 1 else base.toList) ++
          '/' :: '*' :: '*' :: '/' :: sourceText extension.toList := by
    rw [toList_pattern]
    split
    · rename_i hhead
      exact drop_escaped_append hhead _
    · rfl
  unfold Pattern.parse
  simp only [htokens, habsolute, hrest, getLast?_pattern base h, partTexts_pattern h]
  rw [readParts_pattern h]
  simp only [Except.map, mergeRecursive_pattern]
  rfl

/-- A spelled base begins with a slash if it is absolute. -/
theorem head?_text (b : BaseSpelling) : (b.text.toList.head? == some '/') = b.absolute := by
  rw [BaseSpelling.text, String.toList_ofList]
  cases b.absolute with
  | true => rfl
  | false =>
    obtain ⟨c, components, hcomponents⟩ := List.exists_cons_of_ne_nil b.ne_nil
    have hc := b.valid c (hcomponents ▸ List.mem_cons_self)
    obtain ⟨d, rest, rfl⟩ := List.exists_cons_of_ne_nil hc.ne_nil
    have hd : d ≠ '/' := fun hslash => hc.no_slash (hslash ▸ List.mem_cons_self)
    rw [hcomponents]
    cases components <;> simpa [joinWith] using hd

/-- The parts of a spelled base are its components. -/
theorem baseParts_text (b : BaseSpelling) : baseParts b.text.toList = b.components := by
  have hsplit : splitOn '/' (joinWith '/' b.components) = b.components :=
    splitOn_joinWith b.ne_nil fun c hc => (b.valid c hc).no_slash
  rw [baseParts, head?_text, BaseSpelling.text, String.toList_ofList]
  cases b.absolute <;> exact hsplit

theorem text_ne_nil (b : BaseSpelling) : b.text.toList ≠ [] := by
  intro hnil
  have hparts := baseParts_text b
  rw [hnil] at hparts
  exact (b.valid [] (hparts ▸ List.mem_cons_self)).ne_nil rfl

/-! ## What the parts stand for -/

theorem matchTokens_chars (s name : List Char) :
    matchTokens (s.map .char) name = true ↔ name = s := by
  induction s generalizing name with
  | nil => rw [List.map_nil, matchTokens, List.isEmpty_iff]
  | cons c s ih =>
    cases name with
    | nil => simp [matchTokens]
    | cons d name =>
      rw [List.map_cons, matchTokens, Bool.and_eq_true, ih, beq_iff_eq, List.cons.injEq]
      exact and_congr_left fun _ => eq_comm

/-- A run of any characters leaves some end of the name. -/
theorem matchTokens_anyRun (tokens : List Token) (name : List Char) :
    matchTokens (.anyRun :: tokens) name = true ↔ ∃ s, s <:+ name ∧ matchTokens tokens s = true := by
  induction name with
  | nil =>
    rw [matchTokens]
    constructor
    · exact fun h => ⟨[], List.suffix_refl _, h⟩
    · rintro ⟨s, hs, h⟩
      rwa [List.suffix_nil.mp hs] at h
  | cons c name ih =>
    rw [matchTokens, Bool.or_eq_true, ih]
    constructor
    · rintro (h | ⟨s, hs, h⟩)
      · exact ⟨_, List.suffix_refl _, h⟩
      · exact ⟨s, hs.trans (List.suffix_cons c name), h⟩
    · rintro ⟨s, hs, h⟩
      rcases List.suffix_cons_iff.mp hs with rfl | hs
      · exact .inl h
      · exact .inr ⟨s, hs, h⟩

theorem accepts_sourcePart (e name : List Char) :
    (sourcePart e).accepts name = true ↔ '.' :: e <:+ name := by
  show matchTokens (.anyRun :: ('.' :: e).map .char) name = true ↔ _
  rw [matchTokens_anyRun]
  constructor
  · rintro ⟨s, hs, h⟩
    rwa [(matchTokens_chars _ _).mp h] at hs
  · exact fun h => ⟨_, h, (matchTokens_chars _ _).mpr rfl⟩

end WidgetMigration.Wildcard
