import WidgetMigration.Rule.Edit

/-!
# The rules

The five rules of the migration, their names and what they do. The list `Rule.all` is the order in
which a migration applies them, and a rule is known outside by its `id`.
-/

namespace WidgetMigration

/-- A rewriting rule of the migration. -/
inductive Rule where
  | handlerRename
  | buttonStyleVariant
  | designRemoval
  | labelWrap
  | textFieldLabelWrap
  deriving DecidableEq, Repr

/-- A text after a rule, and the number of places the rule changed. -/
structure RuleOutcome where
  content : String
  count : Nat
  deriving DecidableEq, Repr

namespace Rule

/-- All rules, in the order in which they are applied. -/
def all : List Rule :=
  [.handlerRename, .buttonStyleVariant, .designRemoval, .labelWrap, .textFieldLabelWrap]

/-- The name of a rule in reports. -/
def id : Rule → String
  | .handlerRename => "onpressed-rename"
  | .buttonStyleVariant => "button-style-variant"
  | .designRemoval => "design-param-removal"
  | .labelWrap => "label-text-wrap"
  | .textFieldLabelWrap => "text-field-label-wrap"

/-- One line on what a rule changes. -/
def description : Rule → String
  | .handlerRename => "onPressed: → onPress:"
  | .buttonStyleVariant => "FButtonStyle.<x> → Variant.<x>"
  | .designRemoval => "drop `, design: FButtonCustomStyle(...)`"
  | .labelWrap => "label: 'x' → label: const Text('x')"
  | .textFieldLabelWrap => "label: 'x' → label: const Text('x') inside FTextField("

/-- A rule as it is shown to someone who inspects the rule set. -/
def summary (r : Rule) : String :=
  "Rule \x7b id: \"" ++ r.id ++ "\", description: \"" ++ r.description ++ "\", .. \x7d"

/-- The rule with a given name. -/
def ofId? (name : String) : Option Rule :=
  all.find? fun r => r.id == name

/-- What a rule does to a text. -/
def edit : Rule → List Char → Edit
  | .handlerRename => Edit.renameHandler
  | .buttonStyleVariant => Edit.renameButtonStyles
  | .designRemoval => Edit.removeDesignArguments
  | .labelWrap => Edit.wrapLabels
  | .textFieldLabelWrap => Edit.wrapTextFieldLabels

/-- Applies a rule to a text. -/
def apply (r : Rule) (text : String) : RuleOutcome :=
  let e := r.edit text.toList
  ⟨String.ofList e.text, e.count⟩

theorem ofId?_id (r : Rule) : ofId? r.id = some r := by
  cases r <;> decide

end Rule

end WidgetMigration
