import Mathlib
import WidgetMigration.Proofs.Rule.Shrinking

/-!
# The hits of a chain

Each rule of a chain leaves one hit or none, so the hits come in the order of the rules
(`hits_sublist`). They itemize the total of a text that was changed (`itemized_applyAll`).
-/

namespace WidgetMigration

/-- Some hits itemize a number of changes: each tells of changes, together they tell of all, and no
rule is told of twice or before one that comes earlier. -/
structure Itemized (changes : Nat) (hits : List RuleHit) : Prop where
  changes_pos : 0 < changes
  changes_eq : changes = (hits.map RuleHit.count).sum
  count_pos : ∀ hit ∈ hits, 0 < hit.count
  distinct : (hits.map RuleHit.rule).Nodup
  ordered : (hits.map RuleHit.rule).Sublist (Rule.all.map Rule.id)

theorem total_eq_sum (rules : List Rule) (text : String) :
    (applyRules rules text).total = ((applyRules rules text).hits.map RuleHit.count).sum := by
  rw [total_applyRules, List.sum_eq_foldr, List.foldr_map]

theorem count_pos_of_mem_hits {rules : List Rule} {text : String} {hit : RuleHit}
    (h : hit ∈ (applyRules rules text).hits) : 0 < hit.count := by
  induction rules generalizing text with
  | nil => exact absurd h List.not_mem_nil
  | cons r rules ih =>
    rw [applyRules] at h
    dsimp only at h
    by_cases hcount : (r.apply text).count = 0
    · rw [if_pos hcount] at h
      exact ih h
    · rw [if_neg hcount] at h
      rcases List.mem_cons.mp h with rfl | hlater
      · exact Nat.pos_of_ne_zero hcount
      · exact ih hlater

theorem hits_sublist (rules : List Rule) (text : String) :
    ((applyRules rules text).hits.map RuleHit.rule).Sublist (rules.map Rule.id) := by
  induction rules generalizing text with
  | nil => exact List.Sublist.refl _
  | cons r rules ih =>
    rw [applyRules]
    dsimp only
    by_cases hcount : (r.apply text).count = 0
    · rw [if_pos hcount]
      exact (ih _).cons r.id
    · rw [if_neg hcount]
      exact (ih _).cons_cons r.id

/-- **The hits of a text that was changed itemize the changes.** -/
theorem itemized_applyAll {text : String} (h : (applyAll text).content ≠ text) :
    Itemized (applyAll text).total (applyAll text).hits where
  changes_pos := Nat.pos_of_ne_zero fun hzero =>
    h ((total_applyRules_eq_zero_iff Rule.all text).mp hzero)
  changes_eq := total_eq_sum Rule.all text
  count_pos _ := count_pos_of_mem_hits
  distinct := (hits_sublist Rule.all text).nodup (by decide)
  ordered := hits_sublist Rule.all text

/-- A text with one change, as the files of the small trees have it. -/
theorem applyAll_onPressed :
    (applyAll "onPressed:").content = "onPress:" ∧ (applyAll "onPressed:").total = 1 ∧
      (applyAll "onPressed:").hits = [⟨"onpressed-rename", 1⟩] := by
  refine ⟨?_, ?_, ?_⟩ <;> decide +kernel

end WidgetMigration
