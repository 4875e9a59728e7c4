import WidgetMigration.Proofs.Rule.Renaming
import WidgetMigration.Rule.Basic

/-!
# Renaming the button styles

The rule for button styles goes over a text once for each style, and a later pass reads what the
earlier ones left. No spelling of a style overlaps with another (`separate_buttonStyles`), so the rule
does what a single pass for all styles does, in whatever order the styles come
(`button_styles_renamed`).
-/

namespace WidgetMigration

open WidgetMigration.Text WidgetMigration.Pattern

/-- The spellings of the button styles. -/
def buttonStyles : Renaming ButtonStyle where
  old := ButtonStyle.oldName
  new := ButtonStyle.newName
  old_ne_nil := ButtonStyle.oldName_ne_nil

theorem separate_buttonStyles : buttonStyles.Separate where
  alone v := by cases v <;> decide
  apart v v' hne := by
    cases v <;> cases v' <;> first | exact absurd rfl hne | decide
  fresh v v' := by cases v <;> cases v' <;> decide

theorem nodup_all_buttonStyles : ButtonStyle.all.Nodup := by
  decide

theorem oldForm_buttonStyles :
    buttonStyles.OldForm ButtonStyle.all = fun text v => text = ButtonStyle.oldName v := by
  funext text v
  exact propext (and_iff_right (by cases v <;> decide))

/-- The rule is one pass after the other, which is all at once. -/
theorem renameButtonStyles_eq_atOnce (s : List Char) :
    Edit.renameButtonStyles s = buttonStyles.atOnce ButtonStyle.all s :=
  separate_buttonStyles.passes_eq_atOnce nodup_all_buttonStyles s

/-- **The button styles are renamed as if at once.** There is exactly one way to cut a text at the old
names of the styles with none beginning in a gap, and the rule puts the new name of its style in for
each of them. What it counts are the places where an old name stands in the text. The styles can be
renamed in any order, with the same text and the same count. No old name is left. -/
theorem button_styles_renamed (text : String) :
    (∃ c, OnlyCut (fun w v => w = ButtonStyle.oldName v) text.toList c ∧
      Rule.buttonStyleVariant.apply text =
        ⟨String.ofList (c.render ButtonStyle.newName), c.count⟩) ∧
    (Rule.buttonStyleVariant.apply text).count =
      (ButtonStyle.all.map fun v => occurrences v.oldName text.toList).sum ∧
    (∀ styles : List ButtonStyle, styles.Perm ButtonStyle.all →
      styles.foldl (fun e v => e.andThen (Edit.renameButtonStyle v)) ⟨text.toList, 0⟩ =
        Rule.buttonStyleVariant.edit text.toList) ∧
    ∀ v : ButtonStyle, ¬ v.oldName <:+: (Rule.buttonStyleVariant.apply text).content.toList := by
  have hedit : Rule.buttonStyleVariant.edit text.toList =
      buttonStyles.atOnce ButtonStyle.all text.toList := renameButtonStyles_eq_atOnce text.toList
  refine ⟨?_, ?_, ?_, ?_⟩
  · have hfinds : (buttonStyles.anyOld ButtonStyle.all).Finds _ := separate_buttonStyles.finds
    rw [oldForm_buttonStyles] at hfinds
    obtain ⟨c, hcut, hvalues, hrender⟩ := hfinds.exists_onlyCut text.toList
    refine ⟨c, hcut, ?_⟩
    rw [Rule.apply, hedit, hrender, Cutting.count, hvalues]
    rfl
  · rw [Rule.apply, hedit]
    exact separate_buttonStyles.count_atOnce nodup_all_buttonStyles text.toList
  · intro styles hperm
    exact separate_buttonStyles.passes_perm (hperm.symm.nodup nodup_all_buttonStyles) hperm
      text.toList
  · intro v
    rw [Rule.apply, hedit, String.toList_ofList]
    exact separate_buttonStyles.not_isInfix_atOnce (by cases v <;> decide) text.toList

/-- A style behind the beginning of another one, and a style that keeps its name. -/
def styledButtons : String :=
  "FButtonStyle.FButtonStyle.outline, FButtonStyle.ghost, FButtonStyle.primary"

theorem button_styles_renamed_backwards :
    [ButtonStyle.destructive, .outline, .primary].Perm ButtonStyle.all ∧
      [ButtonStyle.destructive, .outline, .primary].foldl
        (fun e v => Edit.andThen e (Edit.renameButtonStyle v)) (Edit.mk styledButtons.toList 0) =
          Rule.buttonStyleVariant.edit styledButtons.toList ∧
      Rule.buttonStyleVariant.apply styledButtons =
        ⟨"FButtonStyle.Variant.outline, FButtonStyle.ghost, Variant.primary", 2⟩ := by
  have hperm : [ButtonStyle.destructive, .outline, .primary].Perm ButtonStyle.all := by decide
  exact ⟨hperm, (button_styles_renamed styledButtons).2.2.1 _ hperm, by decide +kernel⟩

end WidgetMigration
