import Mathlib.Data.List.TakeWhile
import WidgetMigration.Proofs.Text.Cutting
import WidgetMigration.Rule.Pattern

/-!
# What a match looks like

The recognisers of the rules read their input piece by piece. Here each is said in one sentence: a
text begins with a match exactly when it begins with characters of a given form, and those are the
match (`read_word_iff`, `read_designArgument_iff`, `read_labelLiteral_iff`). The forms are
`designText` and `labelText`.

The blanks of a form are all the blanks there are, since what follows them is no blank; a literal is
all there is up to the next quote, an argument all there is up to the next closing parenthesis. That
is why the right sides need no word about length.
-/

namespace WidgetMigration.Pattern

open WidgetMigration.Text

/-- A label that is set to a plain literal, as it is written. -/
def labelText (blanks literal : List Char) : List Char :=
  "label:".toList ++ (blanks ++ '\'' :: (literal ++ ['\'']))

theorem labelText_eq (blanks literal : List Char) :
    labelText blanks literal =
      "label:".toList ++ (blanks ++ '\'' :: (literal ++ ['\''])) := rfl

theorem wrappedLabel_eq (literal : List Char) :
    wrappedLabel literal = "label: const Text('".toList ++ literal ++ "')".toList := rfl

/-- A `design` argument that is set to a custom style, with the comma before it, as it is written. -/
def designText (blanks₁ blanks₂ argument : List Char) : List Char :=
  ',' :: (blanks₁ ++ ("design:".toList ++ (blanks₂ ++ ("FButtonCustomStyle(".toList ++
    (argument ++ [')'])))))

theorem afterWord_append (w rest : List Char) : afterWord w (w ++ rest) = some rest :=
  afterWord_eq_some_iff.mpr rfl

/-- A text begins with a word exactly when the word's recogniser finds it there. -/
theorem read_word_iff {w : List Char} (hw : w ≠ []) {s : List Char} {m : Match Unit} :
    (word w hw).read s = some m ↔ m.text = w ∧ s = w ++ m.rest := by
  constructor
  · intro h
    obtain ⟨rest, hrest, rfl⟩ := Option.map_eq_some_iff.mp h
    exact ⟨rfl, afterWord_eq_some_iff.mp hrest⟩
  · rintro ⟨htext, rfl⟩
    obtain ⟨text, value, rest⟩ := m
    cases htext
    show (afterWord text (text ++ rest)).map _ = _
    rw [afterWord_append]
    rfl

/-! ## Runs of one kind of character -/

/-- What a run of characters leaves begins with one of another kind. -/
theorem dropWhile_append_cons {p : Char → Bool} {run : List Char} {c : Char} {rest : List Char}
    (hrun : ∀ a ∈ run, p a = true) (hc : p c = false) :
    (run ++ c :: rest).dropWhile p = c :: rest := by
  rw [List.dropWhile_append_of_pos hrun, List.dropWhile_cons_of_neg (by simp [hc])]

/-- A run of characters ends where one of another kind stands. -/
theorem takeWhile_append_cons {p : Char → Bool} {run : List Char} {c : Char} {rest : List Char}
    (hrun : ∀ a ∈ run, p a = true) (hc : p c = false) :
    (run ++ c :: rest).takeWhile p = run := by
  rw [List.takeWhile_append_of_pos hrun, List.takeWhile_cons_of_neg (by simp [hc]),
    List.append_nil]

theorem not_mem_takeWhile_ne (c : Char) (s : List Char) : c ∉ s.takeWhile (· != c) := by
  intro h
  simpa using List.mem_takeWhile_imp h

/-- The character that ends a run of others is that character. -/
theorem head_dropWhile_ne {c d : Char} {s rest : List Char}
    (h : s.dropWhile (· != c) = d :: rest) : d = c := by
  have hd := List.head_dropWhile_not (· != c) (l := s) (by rw [h]; exact List.cons_ne_nil _ _)
  simpa [h] using hd

/-- Characters among which `c` is missing are a run for `takeWhile (· != c)`. -/
theorem ne_of_not_mem {c : Char} {s : List Char} (h : c ∉ s) : ∀ a ∈ s, (a != c) = true := by
  intro a ha
  simpa using fun he : a = c => h (he ▸ ha)

/-! ## The forms -/

/-- A text begins with a label literal exactly when it begins with `label:`, blanks, a quote, some
characters that are no quotes, and a quote. -/
theorem read_labelLiteral_iff {s : List Char} {m : Match (List Char)} :
    labelLiteral.read s = some m ↔
      ∃ blanks, (∀ c ∈ blanks, isBlank c = true) ∧ m.value ≠ [] ∧ '\'' ∉ m.value ∧
        m.text = labelText blanks m.value ∧ s = m.text ++ m.rest := by
  constructor
  · intro h
    have hs := labelLiteral.splits h
    change readLabelLiteral s = some m at h
    simp only [readLabelLiteral, Option.bind_eq_some_iff] at h
    obtain ⟨s₁, _, s₂, _, h⟩ := h
    split at h
    · cases h
    · rename_i hne
      split at h
      · cases h
      · rename_i close rest hclose
        cases head_dropWhile_ne hclose
        obtain rfl := Option.some.inj h
        refine ⟨s₁.takeWhile isBlank, fun c hc => List.mem_takeWhile_imp hc, hne,
          not_mem_takeWhile_ne '\'' s₂, ?_, hs.symm⟩
        simp [labelText_eq]
  · rintro ⟨blanks, hblanks, hne, hquote, htext, rfl⟩
    obtain ⟨text, literal, rest⟩ := m
    simp only at hne hquote htext
    subst htext
    have hquoteBlank : isBlank '\'' = false := by decide
    have hlit := ne_of_not_mem hquote
    have quote (t : List Char) : '\'' :: t = "'".toList ++ t := rfl
    show readLabelLiteral (labelText blanks literal ++ rest) = _
    simp only [readLabelLiteral, labelText_eq, List.append_assoc, List.cons_append, List.nil_append]
    rw [afterWord_append, Option.bind_some, dropWhile_append_cons hblanks hquoteBlank,
      takeWhile_append_cons hblanks hquoteBlank, quote, afterWord_append, Option.bind_some,
      takeWhile_append_cons hlit (by decide), if_neg hne,
      dropWhile_append_cons hlit (by decide)]
    rfl

/-- A text begins with a `design` argument exactly when it begins with a comma, blanks, `design:`,
blanks, `FButtonCustomStyle(`, some characters that are no closing parentheses, and one that is. -/
theorem read_designArgument_iff {s : List Char} {m : Match Unit} :
    designArgument.read s = some m ↔
      ∃ blanks₁ blanks₂ argument, (∀ c ∈ blanks₁, isBlank c = true) ∧
        (∀ c ∈ blanks₂, isBlank c = true) ∧ ')' ∉ argument ∧
        m.text = designText blanks₁ blanks₂ argument ∧ s = m.text ++ m.rest := by
  constructor
  · intro h
    have hs := designArgument.splits h
    change readDesignArgument s = some m at h
    simp only [readDesignArgument, Option.bind_eq_some_iff] at h
    obtain ⟨s₁, _, s₂, _, s₃, _, h⟩ := h
    split at h
    · cases h
    · rename_i close rest hclose
      cases head_dropWhile_ne hclose
      obtain rfl := Option.some.inj h
      refine ⟨s₁.takeWhile isBlank, s₂.takeWhile isBlank, s₃.takeWhile (· != ')'),
        fun c hc => List.mem_takeWhile_imp hc, fun c hc => List.mem_takeWhile_imp hc,
        not_mem_takeWhile_ne ')' s₃, ?_, hs.symm⟩
      simp [designText]
  · rintro ⟨blanks₁, blanks₂, argument, hblanks₁, hblanks₂, hparen, htext, rfl⟩
    obtain ⟨text, value, rest⟩ := m
    simp only at htext
    subst htext
    have harg := ne_of_not_mem hparen
    have hd : isBlank 'd' = false := by decide
    have hF : isBlank 'F' = false := by decide
    have design (t : List Char) : "design:".toList ++ t = 'd' :: ("esign:".toList ++ t) := rfl
    have style (t : List Char) :
        "FButtonCustomStyle(".toList ++ t = 'F' :: ("ButtonCustomStyle(".toList ++ t) := rfl
    have comma (t : List Char) : ',' :: t = ",".toList ++ t := rfl
    show readDesignArgument (designText blanks₁ blanks₂ argument ++ rest) = _
    simp only [readDesignArgument, designText, List.append_assoc, List.cons_append, List.nil_append]
    rw [comma, afterWord_append, Option.bind_some, design, dropWhile_append_cons hblanks₁ hd,
      takeWhile_append_cons hblanks₁ hd, ← design, afterWord_append, Option.bind_some, style,
      dropWhile_append_cons hblanks₂ hF, takeWhile_append_cons hblanks₂ hF, ← style,
      afterWord_append, Option.bind_some, dropWhile_append_cons harg (by decide),
      takeWhile_append_cons harg (by decide)]
    rfl

/-! ## What the recognisers find -/

theorem finds_word {w : List Char} (hw : w ≠ []) : (word w hw).Finds fun text _ => text = w := by
  intro s m
  rw [read_word_iff]
  constructor
  · rintro ⟨htext, heq⟩
    exact ⟨htext, htext.symm ▸ heq⟩
  · rintro ⟨htext, heq⟩
    exact ⟨htext, htext ▸ heq⟩

/-- How a `design` argument that is set to a custom style is written. The argument of the style may
hold anything but a closing parenthesis, line feeds included. -/
def DesignForm (text : List Char) (_ : Unit) : Prop :=
  ∃ blanks₁ blanks₂ argument, (∀ c ∈ blanks₁, isBlank c = true) ∧
    (∀ c ∈ blanks₂, isBlank c = true) ∧ ')' ∉ argument ∧
      text = designText blanks₁ blanks₂ argument

/-- How a label that is set to a plain literal is written. -/
def LabelForm (text literal : List Char) : Prop :=
  ∃ blanks, (∀ c ∈ blanks, isBlank c = true) ∧ literal ≠ [] ∧ '\'' ∉ literal ∧
    text = labelText blanks literal

theorem finds_designArgument : designArgument.Finds DesignForm := by
  intro s m
  rw [read_designArgument_iff]
  constructor
  · rintro ⟨blanks₁, blanks₂, argument, h₁, h₂, hargument, htext, heq⟩
    exact ⟨⟨blanks₁, blanks₂, argument, h₁, h₂, hargument, htext⟩, heq⟩
  · rintro ⟨⟨blanks₁, blanks₂, argument, h₁, h₂, hargument, htext⟩, heq⟩
    exact ⟨blanks₁, blanks₂, argument, h₁, h₂, hargument, htext, heq⟩

theorem finds_labelLiteral : labelLiteral.Finds LabelForm := by
  intro s m
  rw [read_labelLiteral_iff]
  constructor
  · rintro ⟨blanks, hblanks, hne, hliteral, htext, heq⟩
    exact ⟨⟨blanks, hblanks, hne, hliteral, htext⟩, heq⟩
  · rintro ⟨⟨blanks, hblanks, hne, hliteral, htext⟩, heq⟩
    exact ⟨blanks, hblanks, hne, hliteral, htext, heq⟩

end WidgetMigration.Pattern
