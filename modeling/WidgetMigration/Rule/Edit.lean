import WidgetMigration.Rule.Pattern
import WidgetMigration.Text.Split

/-!
# The edits

What each rule does to a text, as a list of characters. An edit says how the text reads afterwards
and how many places were changed.

Four of the edits change every match of a pattern. `wrapTextFieldLabels` works by lines: a line that
begins a text field opens a scope, and the first line from there on with a closing parenthesis ends
it, that line being read after it was changed. As a changed line always has such a parenthesis, a
scope sees at most one change. All labels of the line get the literal of the first, and the line
counts once.
-/

namespace WidgetMigration

open WidgetMigration.Text WidgetMigration.Pattern

/-- A text after a rule, and the number of places the rule changed. -/
structure Edit where
  text : List Char
  count : Nat

namespace Edit

/-- Puts `f v` in the place of every match that means `v`. -/
def replacing {α : Type} (r : Recogniser α) (f : α → List Char) (s : List Char) : Edit :=
  ⟨r.replace f s, r.count s⟩

/-- One edit after another; the counts add up. -/
def andThen (e : Edit) (f : List Char → Edit) : Edit :=
  ⟨(f e.text).text, e.count + (f e.text).count⟩

/-- The press handler gets its new name. -/
def renameHandler : List Char → Edit :=
  replacing handler fun _ => newHandler

/-- One button style gets its new name. -/
def renameButtonStyle (v : ButtonStyle) : List Char → Edit :=
  replacing (buttonStyle v) fun _ => v.newName

/-- The button styles get their new names, one style after the other. -/
def renameButtonStyles (s : List Char) : Edit :=
  ButtonStyle.all.foldl (fun e v => e.andThen (renameButtonStyle v)) ⟨s, 0⟩

/-- Design arguments are taken out. -/
def removeDesignArguments : List Char → Edit :=
  replacing designArgument fun _ => []

/-- Label literals are wrapped in a text widget. -/
def wrapLabels : List Char → Edit :=
  replacing labelLiteral wrappedLabel

/-- A line with all its labels set to the literal of the first; nothing if it has no label. -/
def wrapLineLabels (line : List Char) : Option (List Char) :=
  (labelLiteral.values line).head?.map fun first =>
    labelLiteral.replace (fun _ => wrappedLabel first) line

/-- The lines after the scoped edit, and how many were changed. `inside` tells whether the scope of
a text field is open before the first of them. -/
def wrapScopedLines (inside : Bool) : List (List Char) → List (List Char) × Nat
  | [] => ([], 0)
  | line :: lines =>
    let inside := inside || occursIn textFieldCall line
    let changed := if inside then wrapLineLabels line else none
    let line := changed.getD line
    let later := wrapScopedLines (inside && !line.contains ')') lines
    (line :: later.1, (if changed.isSome then 1 else 0) + later.2)

/-- Label literals on the lines of a text field are wrapped in a text widget. -/
def wrapTextFieldLabels (s : List Char) : Edit :=
  let r := wrapScopedLines false (splitOn '\n' s)
  ⟨joinWith '\n' r.1, r.2⟩

end Edit

end WidgetMigration
