/-!
# Scanning a text for matches

A `Recogniser` looks at the head of a text and either finds a match there or does not. `pieces` cuts
a whole text from left to right: where a match begins it is taken as one piece and the scan goes on
behind it, and any other character is a piece of its own. So matches are leftmost and never overlap.
Counting the matches (`count`) and putting something else in their place (`replace`) are folds over
the pieces.

A recogniser finds at most one match at a position, so the class of patterns is those whose match
is fixed by where it starts. Alternatives of different length at one place are not expressible, and
no rule needs them.
-/

namespace WidgetMigration.Text

/-- What a recogniser found at the head of a text: the characters it took, what they mean, and the
text behind them. -/
structure Match (α : Type) where
  text : List Char
  value : α
  rest : List Char

/-- A pattern that is looked for at the head of a text. A match is never empty, so a scan that goes
on behind a match comes closer to the end. -/
structure Recogniser (α : Type) where
  read : List Char → Option (Match α)
  splits : ∀ {s : List Char} {m : Match α}, read s = some m → m.text ++ m.rest = s
  nonempty : ∀ {s : List Char} {m : Match α}, read s = some m → m.text ≠ []

namespace Recogniser

variable {α : Type}

theorem rest_length_lt (r : Recogniser α) {s : List Char} {m : Match α} (h : r.read s = some m) :
    m.rest.length < s.length := by
  have hs := congrArg List.length (r.splits h)
  have hn := List.length_pos_iff.2 (r.nonempty h)
  simp only [List.length_append] at hs
  omega

end Recogniser

/-- A piece of a text that was scanned: a character at which no match begins, or a match. -/
inductive Piece (α : Type) where
  | plain (c : Char)
  | found (text : List Char) (value : α)

/-- The characters that a piece covers. -/
def Piece.text {α : Type} : Piece α → List Char
  | .plain c => [c]
  | .found t _ => t

/-- What a piece turns into when matches are replaced by `f`. -/
def Piece.render {α : Type} (f : α → List Char) : Piece α → List Char
  | .plain c => [c]
  | .found _ v => f v

/-- What the match of a piece means, if the piece is a match. -/
def Piece.value? {α : Type} : Piece α → Option α
  | .plain _ => none
  | .found _ v => some v

namespace Recogniser

variable {α : Type}

/-- Cuts a text into its leftmost matches and the characters between them. -/
def pieces (r : Recogniser α) : List Char → List (Piece α)
  | [] => []
  | c :: s =>
    match _h : r.read (c :: s) with
    | some m => .found m.text m.value :: r.pieces m.rest
    | none => .plain c :: r.pieces s
termination_by s => s.length
decreasing_by
  · exact r.rest_length_lt _h
  · exact Nat.lt_succ_self s.length

/-- The meanings of the matches of a text, from left to right. -/
def values (r : Recogniser α) (s : List Char) : List α :=
  (r.pieces s).filterMap Piece.value?

/-- The number of matches in a text. -/
def count (r : Recogniser α) (s : List Char) : Nat :=
  (r.values s).length

/-- A text with `f v` in the place of each match that means `v`. -/
def replace (r : Recogniser α) (f : α → List Char) (s : List Char) : List Char :=
  (r.pieces s).flatMap (Piece.render f)

theorem read_nil (r : Recogniser α) : r.read [] = none := by
  cases h : r.read [] with
  | none => rfl
  | some m => exact absurd (r.rest_length_lt h) (by simp)

@[simp] theorem pieces_nil (r : Recogniser α) : r.pieces [] = [] := by
  rw [pieces]

theorem pieces_of_read (r : Recogniser α) {s : List Char} {m : Match α} (h : r.read s = some m) :
    r.pieces s = .found m.text m.value :: r.pieces m.rest := by
  cases s with
  | nil => simp [r.read_nil] at h
  | cons c s =>
    rw [pieces]
    split
    · rename_i m' h'
      rw [h] at h'
      cases h'
      rfl
    · rename_i h'
      simp [h] at h'

theorem pieces_cons (r : Recogniser α) {c : Char} {s : List Char} (h : r.read (c :: s) = none) :
    r.pieces (c :: s) = .plain c :: r.pieces s := by
  rw [pieces]
  split
  · rename_i h'
    simp [h] at h'
  · rfl

end Recogniser

/-! ## Words -/

/-- What stands behind the word `w` at the head of a text, if the text begins with it. -/
def afterWord : List Char → List Char → Option (List Char)
  | [], s => some s
  | _ :: _, [] => none
  | w :: ws, c :: s => if w = c then afterWord ws s else none

theorem afterWord_eq_some_iff {w s rest : List Char} :
    afterWord w s = some rest ↔ s = w ++ rest := by
  fun_induction afterWord w s with
  | case1 s => simp
  | case2 w ws => simp
  | case3 w s c ih => simp [ih]
  | case4 w ws c s h =>
    simp only [List.cons_append, List.cons.injEq, reduceCtorEq, false_iff, not_and]
    exact fun h' => absurd h'.symm h

/-- Recognises one fixed word. -/
def word (w : List Char) (hw : w ≠ []) : Recogniser Unit where
  read s := (afterWord w s).map fun rest => ⟨w, (), rest⟩
  splits h := by
    obtain ⟨rest, h', rfl⟩ := Option.map_eq_some_iff.1 h
    exact (afterWord_eq_some_iff.1 h').symm
  nonempty h := by
    obtain ⟨rest, _, rfl⟩ := Option.map_eq_some_iff.1 h
    exact hw

/-- Whether a word occurs anywhere in a text. -/
def occursIn (w : List Char) : List Char → Bool
  | [] => w.isEmpty
  | c :: s => (afterWord w (c :: s)).isSome || occursIn w s

end WidgetMigration.Text
