import WidgetMigration.Rule.Basic

/-!
# The rule chain

Rules applied one after the other, each to the text that the one before it left. A rule that changed
something leaves a hit, so the hits come in the order of the rules, and the total is the sum of what
the rules counted.
-/

namespace WidgetMigration

/-- How often a rule changed something. The rule is given by its name. -/
structure RuleHit where
  rule : String
  count : Nat
  deriving DecidableEq, Repr

/-- A text after some rules: how it reads now, the number of changes, and which rules made them. -/
structure ChainOutcome where
  content : String
  total : Nat
  hits : List RuleHit
  deriving DecidableEq, Repr

/-- Applies rules from left to right. -/
def applyRules : List Rule → String → ChainOutcome
  | [], text => ⟨text, 0, []⟩
  | r :: rules, text =>
    let here := r.apply text
    let later := applyRules rules here.content
    { content := later.content
      total := here.count + later.total
      hits := if here.count = 0 then later.hits else ⟨r.id, here.count⟩ :: later.hits }

/-- Applies all rules of the migration. -/
def applyAll (text : String) : ChainOutcome :=
  applyRules Rule.all text

theorem total_applyRules (rules : List Rule) (text : String) :
    (applyRules rules text).total =
      (applyRules rules text).hits.foldr (fun h n => h.count + n) 0 := by
  induction rules generalizing text with
  | nil => rfl
  | cons r rules ih =>
    simp only [applyRules, ih]
    split <;> simp_all

end WidgetMigration
