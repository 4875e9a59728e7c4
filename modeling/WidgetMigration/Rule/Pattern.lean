import WidgetMigration.Text.Blank
import WidgetMigration.Text.Scan

/-!
# What the rules look for

The patterns of the rules as recognisers: the old name of the press handler, the three old button
style names, a `design` argument with what it is set to, and a label that is a plain string literal.

Blanks are skipped as far as they go, an argument runs to the first closing parenthesis and a literal
to the next quote. None of the three can be shortened and still be followed by what the pattern wants
next, so a match is fixed by the place where it starts.

Parentheses are not balanced: in `design: FButtonCustomStyle(f(1))` the match ends behind the first
of the two closing ones.
-/

namespace WidgetMigration.Pattern

open WidgetMigration.Text

/-- The old name of the press handler, as a named argument. -/
def oldHandler : List Char := "onPressed:".toList

/-- The new name of the press handler. -/
def newHandler : List Char := "onPress:".toList

/-- The button styles that were renamed. -/
inductive ButtonStyle where
  | primary
  | outline
  | destructive
  deriving DecidableEq, Repr

namespace ButtonStyle

/-- All button styles, in the order in which they are renamed. -/
def all : List ButtonStyle := [.primary, .outline, .destructive]

/-- The old way to write a style. -/
def oldName : ButtonStyle → List Char
  | .primary => "FButtonStyle.primary".toList
  | .outline => "FButtonStyle.outline".toList
  | .destructive => "FButtonStyle.destructive".toList

/-- The new way to write a style. -/
def newName : ButtonStyle → List Char
  | .primary => "Variant.primary".toList
  | .outline => "Variant.outline".toList
  | .destructive => "Variant.destructive".toList

theorem oldName_ne_nil (v : ButtonStyle) : v.oldName ≠ [] := by
  cases v <;> decide

end ButtonStyle

/-- The old handler name. -/
def handler : Recogniser Unit :=
  word oldHandler (by decide)

/-- The old name of a button style. -/
def buttonStyle (v : ButtonStyle) : Recogniser Unit :=
  word v.oldName v.oldName_ne_nil

/-! ## The design argument -/

/-- Reads a comma, blanks, `design:`, blanks, `FButtonCustomStyle(`, and on to the first closing
parenthesis. -/
def readDesignArgument (s : List Char) : Option (Match Unit) :=
  (afterWord ",".toList s).bind fun s₁ =>
  (afterWord "design:".toList (s₁.dropWhile isBlank)).bind fun s₂ =>
  (afterWord "FButtonCustomStyle(".toList (s₂.dropWhile isBlank)).bind fun s₃ =>
  match s₃.dropWhile (· != ')') with
  | [] => none
  | close :: rest => some
    { text := ",".toList ++ s₁.takeWhile isBlank ++ "design:".toList ++ s₂.takeWhile isBlank ++
        "FButtonCustomStyle(".toList ++ s₃.takeWhile (· != ')') ++ [close]
      value := ()
      rest := rest }

theorem readDesignArgument_eq {s : List Char} {m : Match Unit} (h : readDesignArgument s = some m) :
    m.text ++ m.rest = s ∧ m.text ≠ [] := by
  simp only [readDesignArgument, Option.bind_eq_some_iff] at h
  obtain ⟨s₁, h₁, s₂, h₂, s₃, h₃, h⟩ := h
  split at h
  · simp at h
  · rename_i close rest h₄
    obtain rfl := Option.some.inj h
    rw [afterWord_eq_some_iff] at h₁ h₂ h₃
    have e₁ := List.takeWhile_append_dropWhile (p := isBlank) (l := s₁)
    have e₂ := List.takeWhile_append_dropWhile (p := isBlank) (l := s₂)
    have e₃ := List.takeWhile_append_dropWhile (p := (· != ')')) (l := s₃)
    rw [h₂] at e₁
    rw [h₃] at e₂
    rw [h₄] at e₃
    refine ⟨?_, by simp⟩
    simp only [List.append_assoc, List.cons_append, List.nil_append, e₃, e₂, e₁, h₁]

/-- A `design` argument that is set to a custom button style, with the comma before it. -/
def designArgument : Recogniser Unit where
  read := readDesignArgument
  splits h := (readDesignArgument_eq h).1
  nonempty h := (readDesignArgument_eq h).2

/-! ## The label literal -/

/-- Reads `label:`, blanks, a quote, and on to the next quote. The match means what stands between
the quotes, and that is not empty. -/
def readLabelLiteral (s : List Char) : Option (Match (List Char)) :=
  (afterWord "label:".toList s).bind fun s₁ =>
  (afterWord "'".toList (s₁.dropWhile isBlank)).bind fun s₂ =>
  if s₂.takeWhile (· != '\'') = [] then none
  else
    match s₂.dropWhile (· != '\'') with
    | [] => none
    | close :: rest => some
      { text := "label:".toList ++ s₁.takeWhile isBlank ++ "'".toList ++
          s₂.takeWhile (· != '\'') ++ [close]
        value := s₂.takeWhile (· != '\'')
        rest := rest }

theorem readLabelLiteral_eq {s : List Char} {m : Match (List Char)}
    (h : readLabelLiteral s = some m) : m.text ++ m.rest = s ∧ m.text ≠ [] := by
  simp only [readLabelLiteral, Option.bind_eq_some_iff] at h
  obtain ⟨s₁, h₁, s₂, h₂, h⟩ := h
  split at h
  · simp at h
  · split at h
    · simp at h
    · rename_i close rest h₃
      obtain rfl := Option.some.inj h
      rw [afterWord_eq_some_iff] at h₁ h₂
      have e₁ := List.takeWhile_append_dropWhile (p := isBlank) (l := s₁)
      have e₂ := List.takeWhile_append_dropWhile (p := (· != '\'')) (l := s₂)
      rw [h₂] at e₁
      rw [h₃] at e₂
      refine ⟨?_, by simp⟩
      simp only [List.append_assoc, List.cons_append, List.nil_append, e₂, e₁, h₁]

/-- A label that is set to a plain string literal; a match means the text of the literal. -/
def labelLiteral : Recogniser (List Char) where
  read := readLabelLiteral
  splits h := (readLabelLiteral_eq h).1
  nonempty h := (readLabelLiteral_eq h).2

/-- How a call that builds a text field begins. -/
def textFieldCall : List Char := "FTextField(".toList

/-- A label set to a text widget that shows `literal`. The literal is put in as it is. -/
def wrappedLabel (literal : List Char) : List Char :=
  "label: const Text('".toList ++ literal ++ "')".toList

end WidgetMigration.Pattern
