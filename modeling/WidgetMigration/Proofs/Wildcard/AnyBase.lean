import WidgetMigration.Proofs.Wildcard.SourcePattern

/-!
# Patterns below any base directory

The pattern of a target can be read whatever the base directory is called (`exists_parse_pattern`):
empty, with doubled slashes, or with brackets and stars in any arrangement. Only the extension has to
be free of what means something in a pattern; it may hold slashes.

Escaping puts no slash in, so the pattern falls apart at the slashes of the base, and each part of it
is an escaped part of the base, two stars, or a part of the wanted ending.
-/

namespace WidgetMigration.Wildcard

variable {e : List Char}

/-! ## The parts -/

/-- The first part of an ending is an ending, and the others are plain. -/
theorem splitOn_sourceText (e : List Char) :
    ∃ first later, splitOn '/' e = first :: later ∧
      splitOn '/' (sourceText e) = sourceText first :: later := by
  cases hsplit : splitOn '/' e with
  | nil => exact absurd hsplit (splitOn_ne_nil '/' e)
  | cons first later =>
    refine ⟨first, later, rfl, ?_⟩
    rw [sourceText, splitOn, if_neg (by decide), splitOn, if_neg (by decide), hsplit]
    rfl

theorem IsPlain.of_mem_splitOn (h : IsPlain e) {part : List Char} (hpart : part ∈ splitOn '/' e) :
    IsPlain part :=
  fun c hc => h c ((isInfix_of_mem_splitOn hpart).subset hc)

theorem exists_read_plain (h : IsPlain e) : ∃ part, Part.read e = .ok part := by
  rw [Part.read, readTokens_plain_run h]
  exact ⟨_, rfl⟩

/-- **Each part of the pattern can be read.** -/
theorem exists_read_of_mem (h : IsPlain e) {base text : List Char}
    (htext : text ∈ splitOn '/' (escaped base ++ '/' :: '*' :: '*' :: '/' :: sourceText e)) :
    ∃ part, Part.read text = .ok part := by
  have hstars : splitOn '/' ('*' :: '*' :: '/' :: sourceText e) =
      ['*', '*'] :: splitOn '/' (sourceText e) := splitOn_append_cons ['*', '*'] (sourceText e)
  obtain ⟨first, later, hsplit, hsource⟩ := splitOn_sourceText e
  rw [splitOn_append_cons, splitOn_escaped, hstars, hsource] at htext
  rcases List.mem_append.mp htext with hbase | htext
  · obtain ⟨part, _, rfl⟩ := List.mem_map.mp hbase
    exact ⟨_, read_escape part⟩
  rcases List.mem_cons.mp htext with rfl | htext
  · exact ⟨_, read_recursive⟩
  rcases List.mem_cons.mp htext with rfl | hlater
  · exact ⟨_, read_source (h.of_mem_splitOn (hsplit ▸ List.mem_cons_self))⟩
  · exact exists_read_plain (h.of_mem_splitOn (hsplit ▸ List.mem_cons_of_mem first hlater))

/-! ## The whole -/

theorem exists_readParts {texts : List (List Char)}
    (h : ∀ text ∈ texts, ∃ part, Part.read text = .ok part) :
    ∃ parts, readParts texts = .ok parts := by
  induction texts with
  | nil => exact ⟨[], rfl⟩
  | cons text texts ih =>
    obtain ⟨⟨part, hpart⟩, htexts⟩ := List.forall_mem_cons.mp h
    obtain ⟨parts, hparts⟩ := ih htexts
    rw [readParts, hpart, hparts]
    exact ⟨part :: parts, rfl⟩

theorem partTexts_subset (s : List Char) : partTexts s ⊆ splitOn '/' s := by
  unfold partTexts
  dsimp only
  split
  · exact List.dropLast_subset _
  · exact List.Subset.refl _

/-- A slash in front of a text only puts an empty part before the others. -/
theorem splitOn_rest_subset {s : List Char} (absolute : Bool)
    (h : (s.head? == some '/') = absolute) :
    splitOn '/' (if absolute then s.drop 1 else s) ⊆ splitOn '/' s := by
  cases absolute with
  | false => exact List.Subset.refl _
  | true =>
    obtain ⟨rest, rfl⟩ := List.head?_eq_some_iff.mp (beq_iff_eq.mp h)
    rw [splitOn, if_pos rfl]
    exact List.subset_cons_self _ _

/-- **The pattern below any base directory can be read**, as a whole and part by part. -/
theorem exists_parse_pattern (base : String) {extension : String}
    (h : IsPlain extension.toList) :
    ∃ pattern, Pattern.parse (Target.pattern base extension) = .ok pattern := by
  have hlist := toList_pattern base extension
  obtain ⟨tokens, htokens⟩ := readTokens_pattern h base.toList
  rw [← hlist] at htokens
  obtain ⟨parts, hparts⟩ : ∃ parts, readParts (partTexts
      (if (Target.pattern base extension).toList.head? == some '/'
        then (Target.pattern base extension).toList.drop 1
        else (Target.pattern base extension).toList)) = .ok parts := by
    refine exists_readParts fun text htext => ?_
    have hmem := splitOn_rest_subset _ rfl (partTexts_subset _ htext)
    rw [hlist] at hmem
    exact exists_read_of_mem h hmem
  unfold Pattern.parse
  dsimp only
  rw [htokens, hparts]
  exact ⟨_, rfl⟩

end WidgetMigration.Wildcard
