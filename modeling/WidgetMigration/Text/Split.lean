/-!
# Splitting at a separator

A list cut at every occurrence of a separator: a text into its lines, a path into its segments. There
is always one part more than there are separators, so the empty list is one empty part.

`joinWith_splitOn` says that splitting loses nothing.
-/

namespace WidgetMigration

variable {α : Type} [DecidableEq α]

/-- The parts of a list between the occurrences of `sep`. -/
def splitOn (sep : α) : List α → List (List α)
  | [] => [[]]
  | a :: l =>
    if a = sep then [] :: splitOn sep l
    else
      match splitOn sep l with
      | [] => [[a]]
      | part :: parts => (a :: part) :: parts

/-- The list with some parts, `sep` standing between each two of them. -/
def joinWith (sep : α) : List (List α) → List α
  | [] => []
  | [part] => part
  | part :: next :: parts => part ++ sep :: joinWith sep (next :: parts)

theorem splitOn_ne_nil (sep : α) (l : List α) : splitOn sep l ≠ [] := by
  cases l with
  | nil => simp [splitOn]
  | cons a l =>
    unfold splitOn
    split
    · simp
    · split <;> simp

/-- Splitting loses nothing. -/
theorem joinWith_splitOn (sep : α) (l : List α) : joinWith sep (splitOn sep l) = l := by
  induction l with
  | nil => rfl
  | cons a l ih =>
    unfold splitOn
    split
    · rename_i h
      cases hs : splitOn sep l with
      | nil => exact absurd hs (splitOn_ne_nil sep l)
      | cons part parts =>
        rw [hs] at ih
        simp [joinWith, ih, h]
    · split
      · rename_i hs
        exact absurd hs (splitOn_ne_nil sep l)
      · rename_i part parts hs
        rw [hs] at ih
        cases parts with
        | nil => simpa [joinWith] using ih
        | cons next parts => simpa [joinWith] using ih

end WidgetMigration
