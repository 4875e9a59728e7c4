import WidgetMigration.Proofs.Rule.Settled
import WidgetMigration.Proofs.Rule.Wrapping

/-!
# What wrapping the labels leaves behind

After the labels of a text were wrapped, a label with a plain literal stands only where a literal
that was wrapped ends in `label:` and blanks. If no literal does, neither of the two rules for labels
finds anything more, and the rule for the lines of text fields has nothing of its own to do
(`labels_left`).
-/

namespace WidgetMigration

open WidgetMigration.Text WidgetMigration.Pattern

/-- A literal ends in `label:` and blanks, so a quote behind it opens another literal. -/
def EndsInLabel (literal : List Char) : Prop :=
  ∃ start blanks, (∀ c ∈ blanks, isBlank c = true) ∧ literal = start ++ ("label:".toList ++ blanks)

/-- A literal whose last character is neither a colon nor a blank does not end in a label. -/
theorem not_endsInLabel {start : List Char} {c : Char} (hblank : isBlank c = false) (hc : c ≠ ':') :
    ¬ EndsInLabel (start ++ [c]) := by
  rintro ⟨start', blanks, hblanks, heq⟩
  have hcolon : "label:".toList = "label".toList ++ [':'] := by decide
  rw [hcolon, List.append_assoc, List.singleton_append, ← List.append_assoc] at heq
  have hmem := mem_of_isSuffix_append_singleton ⟨_, heq.symm⟩ (List.cons_ne_nil ':' blanks)
  rcases List.mem_cons.mp hmem with rfl | hmem
  · exact hc rfl
  · exact not_mem_of_isBlank hblanks hblank hmem

/-- Wrapping leaves nothing to wrap if no literal that it wraps ends in a label. -/
theorem count_labelLiteral_wrapped {s : List Char}
    (h : ∀ literal ∈ labelLiteral.values s, ¬ EndsInLabel literal) :
    labelLiteral.count (labelLiteral.replace wrappedLabel s) = 0 := by
  rw [count_labelLiteral_eq_zero_iff]
  rintro blanks literal hblanks hne hliteral ⟨before, rest, heq⟩
  rw [List.append_assoc] at heq
  obtain ⟨earlier, text, start, later, hpieces, _, _⟩ :=
    opensInLiteral_of_label hblanks hne hliteral heq.symm
  have hmem : Piece.found text (start ++ ("label:".toList ++ blanks)) ∈ labelLiteral.pieces s :=
    hpieces ▸ List.mem_append_right earlier List.mem_cons_self
  exact h _ (Recogniser.mem_values_of_mem_pieces hmem) ⟨start, blanks, hblanks, rfl⟩

/-- A rule whose edit counts nothing gives back the text. -/
theorem Rule.apply_eq_self {r : Rule} {text : String} (h : (r.edit text.toList).count = 0) :
    r.apply text = ⟨text, 0⟩ := by
  have hcontent := (r.count_apply_eq_zero_iff text).mp h
  have hcount : (r.apply text).count = 0 := h
  calc r.apply text = ⟨(r.apply text).content, (r.apply text).count⟩ := rfl
    _ = ⟨text, 0⟩ := by rw [hcontent, hcount]

/-- **What wrapping the labels leaves behind.** Where a label with a literal stands in the wrapped
text, its opening quote is the one that was put behind a literal, and so its literal begins with the
parenthesis that was put there. If no literal of the text ends in a label, neither rule for labels
finds anything in the wrapped text. -/
theorem labels_left (text : String) :
    (∀ before blanks literal rest, (∀ c ∈ blanks, isBlank c = true) → literal ≠ [] →
      '\'' ∉ literal →
      (Rule.labelWrap.apply text).content.toList = before ++ (labelText blanks literal ++ rest) →
        OpensInLiteral text.toList before blanks (literal ++ '\'' :: rest) ∧
          literal.head? = some ')') ∧
    ((∀ literal ∈ labelLiteral.values text.toList, ¬ EndsInLabel literal) →
      Rule.labelWrap.apply (Rule.labelWrap.apply text).content =
        ⟨(Rule.labelWrap.apply text).content, 0⟩ ∧
      Rule.textFieldLabelWrap.apply (Rule.labelWrap.apply text).content =
        ⟨(Rule.labelWrap.apply text).content, 0⟩) := by
  have hwrapped : (Rule.labelWrap.apply text).content.toList =
      labelLiteral.replace wrappedLabel text.toList := String.toList_ofList
  constructor
  · intro before blanks literal rest hblanks hne hliteral heq
    have hopens := opensInLiteral_of_label hblanks hne hliteral (hwrapped.symm.trans heq)
    refine ⟨hopens, ?_⟩
    obtain ⟨_, _, _, _, _, _, hbehind⟩ := hopens
    cases literal with
    | nil => exact absurd rfl hne
    | cons c literal => exact congrArg some (List.cons.inj hbehind).1
  · intro h
    have hcount : labelLiteral.count (Rule.labelWrap.apply text).content.toList = 0 := by
      rw [hwrapped]
      exact count_labelLiteral_wrapped h
    exact ⟨Rule.apply_eq_self hcount, Rule.apply_eq_self (count_wrapTextFieldLabels_eq_zero hcount)⟩

/-- Labels in a text field: one that holds a label, an empty one, and one without a blank. -/
def fields : String := "FTextField(label: 'label:x',\nlabel: '', label:'B')"

/-- The same with the labels wrapped. -/
def wrappedFields : String :=
  "FTextField(label: const Text('label:x'),\nlabel: '', label: const Text('B'))"

/-- A literal that ends in a label leaves a label behind, and literals that only hold one do not. -/
theorem labels_left_nested :
    ((Rule.labelWrap.apply "label: 'label: 'A'").content = "label: const Text('label: ')A'" ∧
      OpensInLiteral "label: 'label: 'A'".toList "label: const Text('".toList [' ']
        (")A".toList ++ ['\''])) ∧
    ((Rule.labelWrap.apply fields).content = wrappedFields ∧
      Rule.textFieldLabelWrap.apply wrappedFields = ⟨wrappedFields, 0⟩) := by
  have hnested : (Rule.labelWrap.apply "label: 'label: 'A'").content =
      "label: const Text('label: ')A'" := by
    decide +kernel
  have hwrapped : (Rule.labelWrap.apply fields).content = wrappedFields := by decide +kernel
  refine ⟨⟨hnested, ?_⟩, hwrapped, ?_⟩
  · exact ((labels_left "label: 'label: 'A'").1 "label: const Text('".toList [' '] ")A".toList []
      (List.forall_mem_singleton.mpr rfl) (by decide) (by decide) (by rw [hnested]; decide +kernel)).1
  · have hvalues : labelLiteral.values fields.toList =
        ["label:".toList ++ ['x'], [] ++ ['B']] := by
      decide +kernel
    have hsettled := (labels_left fields).2
    rw [hvalues, hwrapped] at hsettled
    refine (hsettled ?_).2
    intro literal hmem
    rcases List.mem_cons.mp hmem with rfl | hmem
    · exact not_endsInLabel (by decide) (by decide)
    · rw [List.mem_singleton.mp hmem]
      exact not_endsInLabel (by decide) (by decide)

end WidgetMigration
