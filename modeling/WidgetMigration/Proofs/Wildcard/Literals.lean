import WidgetMigration.Proofs.Text.Splitting
import WidgetMigration.Wildcard.Pattern

/-!
# The parts of a pattern stand for single steps

A pattern is read part by part between the slashes, and what is read of a part consists of its own
characters (`mem_of_readTokens`). So a part without wildcards holds no slash (`isStep_of_parse`), and
the walk along a pattern goes down one step with each such part.
-/

namespace WidgetMigration.Wildcard

/-- Whether a part stands for a single step, as all do that have wildcards. -/
def Part.IsStep : Part → Prop
  | .literal name => '/' ∉ name
  | .recursive => True
  | .wildcard _ => True

theorem exists_of_map_eq_ok {ε α β : Type} {x : Except ε α} {f : α → β} {b : β}
    (h : x.map f = .ok b) : ∃ a, x = .ok a ∧ f a = b := by
  cases x with
  | error e => cases h
  | ok a => exact ⟨a, rfl, Except.ok.inj h⟩

/-! ## The characters of the elements -/

theorem cutSet_rest_subset {s : List Char} {r : List Char × List Char} (h : cutSet s = some r) :
    r.2 ⊆ s := by
  cases s with
  | nil => cases h
  | cons first s =>
    unfold cutSet at h
    dsimp only at h
    cases hdrop : s.dropWhile (· != ']') with
    | nil =>
      rw [hdrop] at h
      cases h
    | cons close rest =>
      rw [hdrop] at h
      cases h
      intro c hc
      have hmem : c ∈ s.dropWhile (· != ']') := hdrop ▸ List.mem_cons_of_mem _ hc
      exact List.mem_cons_of_mem _ ((List.dropWhile_sublist _).subset hmem)

theorem readSet_rest_subset {s : List Char} {r : Token × List Char} (h : readSet s = some r) :
    r.2 ⊆ s := by
  unfold readSet at h
  split at h
  · obtain ⟨x, hx, rfl⟩ := Option.map_eq_some_iff.mp h
    exact fun c hc => List.mem_cons_of_mem _ (cutSet_rest_subset hx hc)
  · obtain ⟨x, hx, rfl⟩ := Option.map_eq_some_iff.mp h
    exact cutSet_rest_subset hx

/-- A set is no character. -/
theorem readSet_ne_char {s : List Char} {r : Token × List Char} (h : readSet s = some r) (c : Char) :
    r.1 ≠ .char c := by
  unfold readSet at h
  split at h
  · obtain ⟨x, _, rfl⟩ := Option.map_eq_some_iff.mp h
    exact Token.noConfusion
  · obtain ⟨x, _, rfl⟩ := Option.map_eq_some_iff.mp h
    exact Token.noConfusion

/-- **What is read of a pattern consists of its own characters.** -/
theorem mem_of_readTokens {position : Nat} {before : Option Char} {s : List Char}
    {tokens : List Token} (h : readTokens position before s = .ok tokens) {c : Char}
    (hc : .char c ∈ tokens) : c ∈ s := by
  -- An element of the rest is in the rest, and an element that is no character adds none.
  have hrest : ∀ {token : Token} {rest tokens : List Token}, token ≠ .char c →
      token :: rest = tokens → .char c ∈ tokens → .char c ∈ rest := by
    rintro token rest _ hne rfl hmem
    exact (List.mem_cons.mp hmem).resolve_left hne.symm
  fun_induction readTokens position before s generalizing tokens with
  | case1 =>
    cases h
    cases hc
  | case2 position before s ih =>
    obtain ⟨rest, hread, htokens⟩ := exists_of_map_eq_ok h
    exact List.mem_cons_of_mem _ (ih hread (hrest Token.noConfusion htokens hc))
  | case3 => cases h
  | case4 =>
    cases h
    rcases List.mem_singleton.mp hc
  | case5 position before _ s _ ih =>
    obtain ⟨rest, hread, htokens⟩ := exists_of_map_eq_ok h
    have hmem := ih hread (hrest Token.noConfusion htokens hc)
    exact List.mem_cons_of_mem _ (List.mem_cons_of_mem _ (List.mem_cons_of_mem _ hmem))
  | case6 => cases h
  | case7 => cases h
  | case8 position before s _ _ ih =>
    obtain ⟨rest, hread, htokens⟩ := exists_of_map_eq_ok h
    exact List.mem_cons_of_mem _ (ih hread (hrest Token.noConfusion htokens hc))
  | case9 => cases h
  | case10 position before s r hset _ ih =>
    obtain ⟨rest, hread, htokens⟩ := exists_of_map_eq_ok h
    have hmem := ih hread (hrest (readSet_ne_char hset c) htokens hc)
    exact List.mem_cons_of_mem _ (readSet_rest_subset hset hmem)
  | case11 position before d s _ _ _ _ _ ih =>
    obtain ⟨rest, hread, rfl⟩ := exists_of_map_eq_ok h
    rcases List.mem_cons.mp hc with hchar | hmem
    · cases hchar
      exact List.mem_cons_self
    · exact List.mem_cons_of_mem _ (ih hread hmem)

/-! ## The parts -/

theorem mem_of_literal? {tokens : List Token} {name : List Char} (h : literal? tokens = some name)
    {c : Char} (hc : c ∈ name) : .char c ∈ tokens := by
  induction tokens generalizing name with
  | nil =>
    cases h
    cases hc
  | cons token tokens ih =>
    cases token with
    | char d =>
      rw [literal?] at h
      obtain ⟨rest, hrest, rfl⟩ := Option.map_eq_some_iff.mp h
      rcases List.mem_cons.mp hc with rfl | hmem
      · exact List.mem_cons_self
      · exact List.mem_cons_of_mem _ (ih hrest hmem)
    | anyChar => cases h
    | anyRun => cases h
    | anyDirectories => cases h
    | oneOf set => cases h
    | noneOf set => cases h

theorem isStep_of_read {s : List Char} (hs : '/' ∉ s) {part : Part} (h : Part.read s = .ok part) :
    part.IsStep := by
  obtain ⟨tokens, hread, rfl⟩ := exists_of_map_eq_ok h
  unfold Part.ofTokens
  cases hliteral : literal? tokens with
  | some name => exact fun hmem => hs (mem_of_readTokens hread (mem_of_literal? hliteral hmem))
  | none =>
    dsimp only
    split
    · trivial
    · trivial

theorem isStep_of_readParts {texts : List (List Char)} (htexts : ∀ s ∈ texts, '/' ∉ s)
    {parts : List Part} (h : readParts texts = .ok parts) : ∀ part ∈ parts, part.IsStep := by
  induction texts generalizing parts with
  | nil =>
    cases h
    exact fun _ hmem => absurd hmem List.not_mem_nil
  | cons s texts ih =>
    obtain ⟨hs, htexts⟩ := List.forall_mem_cons.mp htexts
    rw [readParts] at h
    cases hread : Part.read s with
    | error e =>
      rw [hread] at h
      cases h
    | ok part =>
      rw [hread] at h
      obtain ⟨rest, hrest, rfl⟩ := exists_of_map_eq_ok h
      exact List.forall_mem_cons.mpr ⟨isStep_of_read hs hread, ih htexts hrest⟩

theorem mergeRecursive_subset (parts : List Part) : mergeRecursive parts ⊆ parts := by
  fun_induction mergeRecursive parts with
  | case1 parts ih => exact fun part hmem => List.mem_cons_of_mem _ (ih hmem)
  | case2 part parts _ ih => exact List.cons_subset_cons part ih
  | case3 => exact List.Subset.refl []

theorem slash_not_mem_of_mem_partTexts {s part : List Char} (h : part ∈ partTexts s) :
    '/' ∉ part := by
  unfold partTexts at h
  dsimp only at h
  split at h
  · exact not_mem_of_mem_splitOn (List.dropLast_subset _ h)
  · exact not_mem_of_mem_splitOn h

/-- **Each part of a pattern that was read stands for a single step.** -/
theorem isStep_of_parse {text : String} {pattern : Pattern} (h : Pattern.parse text = .ok pattern) :
    ∀ part ∈ pattern.parts, part.IsStep := by
  unfold Pattern.parse at h
  dsimp only at h
  split at h
  · cases h
  · obtain ⟨parts, hparts, rfl⟩ := exists_of_map_eq_ok h
    intro part hmem
    exact isStep_of_readParts (fun s hs => slash_not_mem_of_mem_partTexts hs) hparts part
      (mergeRecursive_subset parts hmem)

end WidgetMigration.Wildcard
