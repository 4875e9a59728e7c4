import WidgetMigration.Proofs.Rule.Shrinking
import WidgetMigration.Proofs.Text.Splitting

/-!
# Settled texts

A text is settled if nothing in it has a form that a rule looks for. The forms are written out here
(`Sought`), so being settled does not speak of scans. The rules leave a text alone exactly if it is
settled (`applyAll_eq_self_iff`): a chain that counts nothing has met no form, and a form that stands
anywhere is met, though a scan does not look inside what it has found.
-/

namespace WidgetMigration

open WidgetMigration.Text WidgetMigration.Pattern

/-- The forms that rules look for. -/
inductive Sought : List Char → Prop where
  | handler : Sought oldHandler
  | style (v : ButtonStyle) : Sought v.oldName
  | design {blanks₁ blanks₂ argument : List Char} (h₁ : ∀ c ∈ blanks₁, isBlank c = true)
      (h₂ : ∀ c ∈ blanks₂, isBlank c = true) (hargument : ')' ∉ argument) :
      Sought (designText blanks₁ blanks₂ argument)
  | label {blanks literal : List Char} (h : ∀ c ∈ blanks, isBlank c = true) (hne : literal ≠ [])
      (hliteral : '\'' ∉ literal) : Sought (labelText blanks literal)

/-- Nothing in a text has a form that a rule looks for. -/
def Settled (s : List Char) : Prop :=
  ∀ w, Sought w → ¬ w <:+: s

/-! ## Scans that count nothing -/

theorem count_word_eq_zero_iff {w : List Char} (hw : w ≠ []) (s : List Char) :
    (word w hw).count s = 0 ↔ ¬ w <:+: s := by
  rw [(finds_word hw).count_eq_zero_iff]
  constructor
  · exact fun h => h w () rfl
  · rintro h _ _ rfl
    exact h

theorem count_designArgument_eq_zero_iff (s : List Char) :
    designArgument.count s = 0 ↔ ∀ blanks₁ blanks₂ argument, (∀ c ∈ blanks₁, isBlank c = true) →
      (∀ c ∈ blanks₂, isBlank c = true) → ')' ∉ argument →
        ¬ designText blanks₁ blanks₂ argument <:+: s := by
  rw [finds_designArgument.count_eq_zero_iff]
  constructor
  · intro h blanks₁ blanks₂ argument h₁ h₂ hargument
    exact h _ () ⟨blanks₁, blanks₂, argument, h₁, h₂, hargument, rfl⟩
  · rintro h _ _ ⟨blanks₁, blanks₂, argument, h₁, h₂, hargument, rfl⟩
    exact h blanks₁ blanks₂ argument h₁ h₂ hargument

theorem count_labelLiteral_eq_zero_iff (s : List Char) :
    labelLiteral.count s = 0 ↔ ∀ blanks literal, (∀ c ∈ blanks, isBlank c = true) →
      literal ≠ [] → '\'' ∉ literal → ¬ labelText blanks literal <:+: s := by
  rw [finds_labelLiteral.count_eq_zero_iff]
  constructor
  · intro h blanks literal hblanks hne hliteral
    exact h _ literal ⟨blanks, hblanks, hne, hliteral, rfl⟩
  · rintro h _ literal ⟨blanks, hblanks, hne, hliteral, rfl⟩
    exact h blanks literal hblanks hne hliteral

/-! ## Edits that count nothing -/

/-- The styles count nothing together exactly if each of them counts nothing. -/
theorem count_renameButtonStyles_eq_zero_iff (s : List Char) :
    (Edit.renameButtonStyles s).count = 0 ↔ ∀ v : ButtonStyle, (buttonStyle v).count s = 0 := by
  let rename (v : ButtonStyle) (s : List Char) := (buttonStyle v).replace (fun _ => v.newName) s
  have hkept : ∀ v s, (buttonStyle v).count s = 0 → rename v s = s := fun v _ =>
    (buttonStyle v).replace_eq_self_of_count_eq_zero _
  have hcount : (Edit.renameButtonStyles s).count =
      0 + (buttonStyle .primary).count s + (buttonStyle .outline).count (rename .primary s) +
        (buttonStyle .destructive).count (rename .outline (rename .primary s)) := rfl
  rw [hcount, Nat.zero_add, Nat.add_eq_zero_iff, Nat.add_eq_zero_iff]
  constructor
  · rintro ⟨⟨hprimary, houtline⟩, hdestructive⟩
    rw [hkept _ _ hprimary] at houtline hdestructive
    rw [hkept _ _ houtline] at hdestructive
    intro v
    cases v with
    | primary => exact hprimary
    | outline => exact houtline
    | destructive => exact hdestructive
  · intro h
    rw [hkept _ _ (h .primary), hkept _ _ (h .outline)]
    exact ⟨⟨h .primary, h .outline⟩, h .destructive⟩

/-- Without labels no line is changed. -/
theorem count_wrapScopedLines_eq_zero {inside : Bool} {lines : List (List Char)}
    (h : ∀ line ∈ lines, labelLiteral.count line = 0) :
    (Edit.wrapScopedLines inside lines).2 = 0 := by
  induction lines generalizing inside with
  | nil => rfl
  | cons line lines ih =>
    obtain ⟨hline, hlines⟩ := List.forall_mem_cons.mp h
    obtain ⟨changed, later, hchanged, heq⟩ := Edit.wrapScopedLines_cons inside line lines
    have hkept : Edit.wrapLineLabels line = none := by
      unfold Edit.wrapLineLabels
      rw [List.length_eq_zero_iff.mp hline]
      rfl
    have hnone : changed = none := by
      rcases hchanged with hchanged | hchanged
      · exact hchanged
      · exact hchanged.trans hkept
    rw [heq, hnone, ih hlines]
    rfl

theorem count_wrapTextFieldLabels_eq_zero {s : List Char} (h : labelLiteral.count s = 0) :
    (Edit.wrapTextFieldLabels s).count = 0 := by
  refine count_wrapScopedLines_eq_zero (fun line hline => ?_)
  rw [count_labelLiteral_eq_zero_iff] at h ⊢
  intro blanks literal hblanks hne hliteral hin
  exact h blanks literal hblanks hne hliteral (hin.trans (isInfix_of_mem_splitOn hline))

/-! ## Chains that count nothing -/

/-- A chain counts nothing exactly if each of its rules counts nothing: none of them has changed the
text before the next one came to it. -/
theorem total_applyRules_eq_zero_iff_forall (rules : List Rule) (text : String) :
    (applyRules rules text).total = 0 ↔ ∀ r ∈ rules, (r.apply text).count = 0 := by
  induction rules with
  | nil => exact ⟨fun _ _ h => absurd h List.not_mem_nil, fun _ => rfl⟩
  | cons r rules ih =>
    show (r.apply text).count + (applyRules rules (r.apply text).content).total = 0 ↔ _
    rw [Nat.add_eq_zero_iff, List.forall_mem_cons]
    refine and_congr_right fun hzero => ?_
    rw [(r.count_apply_eq_zero_iff text).mp hzero, ih]

/-- **The rules leave a text alone exactly if it is settled.** -/
theorem applyAll_eq_self_iff (text : String) :
    applyAll text = ⟨text, 0, []⟩ ↔ Settled text.toList := by
  have htotal : applyAll text = ⟨text, 0, []⟩ ↔ (applyAll text).total = 0 := by
    constructor
    · intro h
      rw [h]
    · intro h
      rcases applyRules_shrinks Rule.all text with ⟨_, hsame⟩ | ⟨hpos, _⟩
      · exact hsame
      · exact absurd h hpos.ne'
  rw [htotal, applyAll, total_applyRules_eq_zero_iff_forall]
  constructor
  · intro h w hw
    cases hw with
    | handler => exact (count_word_eq_zero_iff _ _).mp (h .handlerRename (by decide))
    | style v =>
      exact (count_word_eq_zero_iff _ _).mp
        ((count_renameButtonStyles_eq_zero_iff _).mp (h .buttonStyleVariant (by decide)) v)
    | design h₁ h₂ hargument =>
      exact (count_designArgument_eq_zero_iff _).mp (h .designRemoval (by decide)) _ _ _ h₁ h₂
        hargument
    | label hblanks hne hliteral =>
      exact (count_labelLiteral_eq_zero_iff _).mp (h .labelWrap (by decide)) _ _ hblanks hne hliteral
  · intro h r _
    have hlabel : labelLiteral.count text.toList = 0 :=
      (count_labelLiteral_eq_zero_iff _).mpr fun _ _ hblanks hne hliteral =>
        h _ (.label hblanks hne hliteral)
    cases r with
    | handlerRename => exact (count_word_eq_zero_iff _ _).mpr (h _ .handler)
    | buttonStyleVariant =>
      exact (count_renameButtonStyles_eq_zero_iff _).mpr fun v =>
        (count_word_eq_zero_iff _ _).mpr (h _ (.style v))
    | designRemoval =>
      exact (count_designArgument_eq_zero_iff _).mpr fun _ _ _ h₁ h₂ hargument =>
        h _ (.design h₁ h₂ hargument)
    | labelWrap => exact hlabel
    | textFieldLabelWrap => exact count_wrapTextFieldLabels_eq_zero hlabel

end WidgetMigration
