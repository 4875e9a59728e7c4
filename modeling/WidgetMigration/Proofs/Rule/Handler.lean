import WidgetMigration.Proofs.Rule.Renaming
import WidgetMigration.Rule.Basic

/-!
# Renaming the press handler

The new name of the press handler begins like the old one, and each ends in a colon, but neither
overlaps with itself or with the other (`separate_pressHandler`). So the rule counts every place where
the old name stands and leaves none, and no occurrence of the new name is made or lost where a
replaced place meets the text around it (`handler_renamed`).
-/

namespace WidgetMigration

open WidgetMigration.Text WidgetMigration.Pattern

/-- The spellings of the press handler. -/
def pressHandler : Renaming Unit where
  old _ := oldHandler
  new _ := newHandler
  old_ne_nil _ := by decide

theorem separate_pressHandler : pressHandler.Separate where
  alone := by decide
  apart _ _ hne := absurd rfl hne
  fresh := by decide

/-- The rule is one pass, so it is all at once. -/
theorem renameHandler_eq_atOnce (s : List Char) :
    Edit.renameHandler s = pressHandler.atOnce [()] s := by
  calc Edit.renameHandler s = pressHandler.passes [()] s :=
        (Edit.start_andThen s (pressHandler.pass ())).symm
    _ = pressHandler.atOnce [()] s :=
        separate_pressHandler.passes_eq_atOnce (List.nodup_singleton ()) s

/-- **The press handler is renamed wherever it stands.** There is exactly one way to cut a text at the
old name with none beginning in a gap. The gaps stay as they are, with the new name between them in
the place of the old one. What is counted are the places where the old name stands in the text. No
old name is left, and the places where the new name stands become more by just that number. -/
theorem handler_renamed (text : String) :
    (∃ c, OnlyCut (fun w (_ : Unit) => w = oldHandler) text.toList c ∧
      text.toList = oldHandler.intercalate c.gaps ∧
      Rule.handlerRename.apply text =
        ⟨String.ofList (newHandler.intercalate c.gaps), c.count⟩) ∧
    (Rule.handlerRename.apply text).count = occurrences oldHandler text.toList ∧
    ¬ oldHandler <:+: (Rule.handlerRename.apply text).content.toList ∧
    occurrences newHandler (Rule.handlerRename.apply text).content.toList =
      occurrences newHandler text.toList + (Rule.handlerRename.apply text).count := by
  have hedit : Rule.handlerRename.edit text.toList = pressHandler.atOnce [()] text.toList :=
    renameHandler_eq_atOnce text.toList
  refine ⟨?_, ?_, ?_, ?_⟩
  · have hfinds : handler.Finds fun w _ => w = oldHandler := finds_word _
    obtain ⟨c, hcut, hvalues, hrender⟩ := hfinds.exists_onlyCut text.toList
    refine ⟨c, hcut, ?_, ?_⟩
    · rw [← c.render_const]
      exact (hcut.1.render_eq fun w _ hw => hw.symm).symm
    · rw [← c.render_const, hrender, Cutting.count, hvalues]
      rfl
  · rw [Rule.apply, hedit, separate_pressHandler.count_atOnce (List.nodup_singleton ())]
    exact List.sum_singleton
  · rw [Rule.apply, hedit, String.toList_ofList]
    exact separate_pressHandler.not_isInfix_atOnce (List.mem_singleton_self ()) text.toList
  · rw [Rule.apply, String.toList_ofList]
    exact separate_pressHandler.occurrences_new_pass (i := ()) (by decide) (by decide) text.toList

/-- A handler behind another one and one that had the new name already. -/
example : Rule.handlerRename.apply "onPressed:onPressed:onPress: onPressedonPress" =
    ⟨"onPress:onPress:onPress: onPressedonPress", 2⟩ := by
  decide +kernel

end WidgetMigration
