import Mathlib.Data.List.Range
import Mathlib.Logic.Basic
import WidgetMigration.Proofs.Rule.Shrinking
import WidgetMigration.Proofs.Text.Splitting

/-!
# Labels in text fields

Which lines the rule for text fields changes, and into what. The rule carries a flag from line to
line. Without the flag: a line stands in a text field if a line up to it begins one and the lines from
there to before it neither close it nor hold a label (`InField`). A changed line gets a closing
parenthesis, so a label ends the field as well as a parenthesis does; that is why both conditions are
on the text as it was.

A line is rewritten if it stands in a text field and holds a label (`LineRewritten`). `text_field_lines`
says that exactly these lines are changed, how, and that they are what is counted.
-/

namespace WidgetMigration

open WidgetMigration.Text WidgetMigration.Pattern

/-! ## Lines -/

/-- The lines of a text. Only a line feed ends a line, so a carriage return belongs to its line. -/
def linesOf (text : String) : List (List Char) :=
  splitOn '\n' text.toList

/-- A call of a text field begins on a line. -/
def BeginsField (line : List Char) : Prop :=
  textFieldCall <:+: line

/-- A label with a plain literal stands on a line. -/
def HoldsLabel (line : List Char) : Prop :=
  ∃ text literal, LabelForm text literal ∧ text <:+: line

/-- A text field goes on behind a line. -/
def GoesOn (line : List Char) : Prop :=
  ')' ∉ line ∧ ¬ HoldsLabel line

/-- Line `i` stands in a text field: one begins on a line up to it and goes on until there. -/
def InField (lines : List (List Char)) (i : Nat) : Prop :=
  ∃ j ≤ i, (∃ line ∈ lines[j]?, BeginsField line) ∧
    ∀ k < i, j ≤ k → ∀ line ∈ lines[k]?, GoesOn line

/-- Line `i` stands in a text field and holds a label. -/
def LineRewritten (lines : List (List Char)) (i : Nat) : Prop :=
  (∃ line ∈ lines[i]?, HoldsLabel line) ∧ InField lines i

theorem count_labelLiteral_ne_zero_iff {line : List Char} :
    labelLiteral.count line ≠ 0 ↔ HoldsLabel line := by
  rw [Ne, finds_labelLiteral.count_eq_zero_iff]
  simp only [HoldsLabel, not_forall, not_not, exists_prop]

instance (line : List Char) : Decidable (BeginsField line) :=
  inferInstanceAs (Decidable (textFieldCall <:+: line))

instance (line : List Char) : Decidable (HoldsLabel line) :=
  decidable_of_iff _ count_labelLiteral_ne_zero_iff

instance (line : List Char) : Decidable (GoesOn line) :=
  inferInstanceAs (Decidable (')' ∉ line ∧ ¬ HoldsLabel line))

instance (lines : List (List Char)) (i : Nat) : Decidable (InField lines i) :=
  inferInstanceAs (Decidable (∃ j ≤ i, (∃ line ∈ lines[j]?, BeginsField line) ∧
    ∀ k < i, j ≤ k → ∀ line ∈ lines[k]?, GoesOn line))

instance (lines : List (List Char)) (i : Nat) : Decidable (LineRewritten lines i) :=
  inferInstanceAs (Decidable ((∃ line ∈ lines[i]?, HoldsLabel line) ∧ InField lines i))

/-! ## One line -/

theorem occursIn_iff {w s : List Char} : occursIn w s = true ↔ w <:+: s := by
  induction s with
  | nil => rw [occursIn, List.isEmpty_iff, List.infix_nil]
  | cons c s ih =>
    have hhead : (afterWord w (c :: s)).isSome = true ↔ w <+: c :: s := by
      rw [Option.isSome_iff_exists]
      exact exists_congr fun rest => afterWord_eq_some_iff.trans eq_comm
    rw [occursIn, Bool.or_eq_true, hhead, ih, List.infix_cons_iff]

namespace Edit

theorem wrapLineLabels_eq_none_iff {line : List Char} :
    wrapLineLabels line = none ↔ ¬ HoldsLabel line := by
  rw [← count_labelLiteral_ne_zero_iff, not_not, wrapLineLabels, Option.map_eq_none_iff,
    List.head?_eq_none_iff]
  exact List.length_eq_zero_iff.symm

theorem exists_wrapLineLabels_iff {line : List Char} :
    (∃ changed, wrapLineLabels line = some changed) ↔ HoldsLabel line := by
  rw [← Option.ne_none_iff_exists', Ne, wrapLineLabels_eq_none_iff, not_not]

theorem exists_onlyCut_of_wrapLineLabels {line changed : List Char}
    (h : wrapLineLabels line = some changed) :
    ∃ c literal, OnlyCut LabelForm line c ∧ c.values.head? = some literal ∧
      changed = c.render fun _ => wrappedLabel literal := by
  obtain ⟨literal, hliteral, rfl⟩ := Option.map_eq_some_iff.mp h
  obtain ⟨c, hcut, hvalues, hrender⟩ := finds_labelLiteral.exists_onlyCut line
  exact ⟨c, literal, hcut, hvalues ▸ hliteral, (hrender _).symm⟩

/-- **A line whose labels are wrapped**: the gaps stay, and each label gets the literal of the
first. -/
theorem exists_onlyCut_of_holdsLabel {line : List Char} (h : HoldsLabel line) :
    ∃ c literal, OnlyCut LabelForm line c ∧ c.values.head? = some literal ∧
      (wrapLineLabels line).getD line = c.render fun _ => wrappedLabel literal := by
  obtain ⟨changed, hchanged⟩ := exists_wrapLineLabels_iff.mpr h
  rw [hchanged]
  exact exists_onlyCut_of_wrapLineLabels hchanged

/-- A line reads otherwise afterwards if it holds a label: it has a bare quote less. -/
theorem getD_wrapLineLabels_ne_iff {line : List Char} :
    (wrapLineLabels line).getD line ≠ line ↔ HoldsLabel line := by
  rw [← exists_wrapLineLabels_iff]
  cases h : wrapLineLabels line with
  | none => simp
  | some changed =>
    refine iff_of_true ?_ ⟨changed, rfl⟩
    rintro (rfl : changed = line)
    exact absurd (bareQuotes_wrapLineLabels h false) (Nat.not_succ_le_self _)

/-- A line whose labels are wrapped holds a closing parenthesis. -/
theorem paren_mem_of_wrapLineLabels {line changed : List Char}
    (h : wrapLineLabels line = some changed) : ')' ∈ changed := by
  obtain ⟨c, literal, _, hliteral, rfl⟩ := exists_onlyCut_of_wrapLineLabels h
  refine Cutting.mem_render (List.mem_of_mem_head? hliteral) ?_
  exact List.mem_append_right _ (by decide)

/-- Wrapping the labels of a line brings in no line feed. -/
theorem lineFeed_not_mem_of_wrapLineLabels {line changed : List Char}
    (h : wrapLineLabels line = some changed) (hline : '\n' ∉ line) : '\n' ∉ changed := by
  obtain ⟨c, literal, hcut, hliteral, rfl⟩ := exists_onlyCut_of_wrapLineLabels h
  obtain ⟨text, hform, hin⟩ := hcut.1.exists_of_mem_values (List.mem_of_mem_head? hliteral)
  obtain ⟨blanks, _, _, _, rfl⟩ := hform
  have hmem : '\n' ∉ literal := fun hmem =>
    hline (hin.subset (by simp [labelText_eq, hmem]))
  intro hchanged
  rcases hcut.1.mem_of_mem_render hchanged with hmem' | ⟨_, _, hmem'⟩
  · exact hline hmem'
  · rw [wrappedLabel_eq] at hmem'
    rcases List.mem_append.mp hmem' with hmem' | hmem'
    · rcases List.mem_append.mp hmem' with hmem' | hmem'
      · exact absurd hmem' (by decide)
      · exact hmem hmem'
    · exact absurd hmem' (by decide)

end Edit

/-! ## One line after the other -/

/-- Line `i` stands in a text field, if `inside` tells whether one is open before the first line. -/
def OpenAt (inside : Bool) (lines : List (List Char)) (i : Nat) : Prop :=
  (inside = true ∧ ∀ k < i, ∀ line ∈ lines[k]?, GoesOn line) ∨ InField lines i

instance (inside : Bool) (lines : List (List Char)) (i : Nat) : Decidable (OpenAt inside lines i) :=
  inferInstanceAs (Decidable ((inside = true ∧ ∀ k < i, ∀ line ∈ lines[k]?, GoesOn line) ∨
    InField lines i))

/-- Whether a text field is open on a line, and whether it still is behind it. -/
def opensOn (inside : Bool) (line : List Char) : Bool :=
  inside || BeginsField line

def staysOpen (inside : Bool) (line : List Char) : Bool :=
  opensOn inside line && GoesOn line

variable {inside : Bool} {line : List Char} {lines : List (List Char)}

theorem openAt_zero_iff : OpenAt inside (line :: lines) 0 ↔ opensOn inside line = true := by
  simp [OpenAt, InField, opensOn]

/-- A field on a later line began on the first line and goes on behind it, or it began later. -/
theorem inField_succ_iff {i : Nat} : InField (line :: lines) (i + 1) ↔
    (BeginsField line ∧ GoesOn line ∧ ∀ k < i, ∀ later ∈ lines[k]?, GoesOn later) ∨
      InField lines i := by
  constructor
  · rintro ⟨j, hj, ⟨entry, hentry, hbegins⟩, hgoes⟩
    cases j with
    | zero =>
      cases hentry
      refine .inl ⟨hbegins, hgoes 0 (Nat.succ_pos i) (Nat.le_refl 0) line rfl, fun k hk => ?_⟩
      exact hgoes (k + 1) (Nat.succ_lt_succ hk) (Nat.zero_le _)
    | succ j =>
      refine .inr ⟨j, Nat.le_of_succ_le_succ hj, ⟨entry, hentry, hbegins⟩, fun k hk hjk => ?_⟩
      exact hgoes (k + 1) (Nat.succ_lt_succ hk) (Nat.succ_le_succ hjk)
  · rintro (⟨hbegins, hline, hgoes⟩ | ⟨j, hj, hentry, hgoes⟩)
    · refine ⟨0, Nat.zero_le _, ⟨line, rfl, hbegins⟩, fun k hk _ => ?_⟩
      cases k with
      | zero =>
        rintro _ ⟨⟩
        exact hline
      | succ k => exact hgoes k (Nat.lt_of_succ_lt_succ hk)
    · refine ⟨j + 1, Nat.succ_le_succ hj, hentry, fun k hk hjk => ?_⟩
      obtain ⟨k, rfl⟩ := Nat.exists_eq_add_of_le' (Nat.le_trans (Nat.succ_pos j) hjk)
      exact hgoes k (Nat.lt_of_succ_lt_succ hk) (Nat.le_of_succ_le_succ hjk)

theorem openAt_succ_iff {i : Nat} :
    OpenAt inside (line :: lines) (i + 1) ↔ OpenAt (staysOpen inside line) lines i := by
  have hall : (∀ k < i + 1, ∀ later ∈ (line :: lines)[k]?, GoesOn later) ↔
      GoesOn line ∧ ∀ k < i, ∀ later ∈ lines[k]?, GoesOn later := by
    rw [Nat.forall_lt_succ_left]
    simp
  rw [OpenAt, OpenAt, hall, inField_succ_iff, ← or_assoc, staysOpen, opensOn, Bool.and_eq_true,
    Bool.or_eq_true, decide_eq_true_eq, decide_eq_true_eq, and_assoc, or_and_right]

namespace Edit

/-- One line of the rule, with the flag told by the line as it was. -/
theorem wrapScopedLines_step (inside : Bool) (line : List Char) (lines : List (List Char)) :
    wrapScopedLines inside (line :: lines) =
      let later := wrapScopedLines (staysOpen inside line) lines
      ((if opensOn inside line then (wrapLineLabels line).getD line else line) :: later.1,
        (if HoldsLabel line ∧ opensOn inside line then 1 else 0) + later.2) := by
  have hopens : (inside || occursIn textFieldCall line) = opensOn inside line := by
    rw [opensOn, Bool.eq_iff_iff.mpr (occursIn_iff.trans decide_eq_true_iff.symm)]
    rfl
  rw [wrapScopedLines, hopens, staysOpen]
  cases opensOn inside line with
  | false => simp
  | true =>
    cases hchanged : wrapLineLabels line with
    | none =>
      have hlabel := wrapLineLabels_eq_none_iff.mp hchanged
      simp [GoesOn, hlabel]
    | some changed =>
      have hlabel : HoldsLabel line := exists_wrapLineLabels_iff.mp ⟨changed, hchanged⟩
      simp [GoesOn, hlabel, paren_mem_of_wrapLineLabels hchanged]

/-- **The lines after the rule.** -/
theorem getElem?_wrapScopedLines (inside : Bool) (lines : List (List Char)) (i : Nat) :
    (wrapScopedLines inside lines).1[i]? = lines[i]?.map fun line =>
      if OpenAt inside lines i then (wrapLineLabels line).getD line else line := by
  induction lines generalizing inside i with
  | nil => rfl
  | cons line lines ih =>
    rw [wrapScopedLines_step]
    cases i with
    | zero => simp only [List.getElem?_cons_zero, Option.map_some, openAt_zero_iff]
    | succ i => simp only [List.getElem?_cons_succ, ih, openAt_succ_iff]

/-- **What the rule counts**: the lines that stand in a text field and hold a label. -/
theorem count_wrapScopedLines (inside : Bool) (lines : List (List Char)) :
    (wrapScopedLines inside lines).2 = (List.range lines.length).countP fun i =>
      (∃ line ∈ lines[i]?, HoldsLabel line) ∧ OpenAt inside lines i := by
  induction lines generalizing inside with
  | nil => rfl
  | cons line lines ih =>
    rw [wrapScopedLines_step, List.length_cons, List.range_succ_eq_map, List.countP_cons,
      List.countP_map, Nat.add_comm]
    simp only [ih, Function.comp_def, Nat.succ_eq_add_one, List.getElem?_cons_succ,
      openAt_succ_iff, List.getElem?_cons_zero, openAt_zero_iff, Option.mem_some, exists_eq_left',
      decide_eq_true_eq]

/-- A text field is open on a line at most because it was before, or because one begins there; and a
line that is counted closes it. -/
theorem count_wrapScopedLines_le (inside : Bool) (lines : List (List Char)) :
    (wrapScopedLines inside lines).2 ≤
      (if inside then 1 else 0) + lines.countP fun line => BeginsField line := by
  induction lines generalizing inside with
  | nil => exact Nat.zero_le _
  | cons line lines ih =>
    have hlater := ih (staysOpen inside line)
    have hcloses : (if HoldsLabel line ∧ opensOn inside line then 1 else 0) +
        (if staysOpen inside line then 1 else 0) ≤ if opensOn inside line then 1 else 0 := by
      rw [staysOpen]
      cases opensOn inside line with
      | false => simp
      | true =>
        by_cases hlabel : HoldsLabel line
        · simp [GoesOn, hlabel]
        · simp only [hlabel, false_and, if_false, Nat.zero_add]
          split <;> decide
    have hopens : (if opensOn inside line then 1 else 0) ≤
        (if inside then 1 else 0) + if decide (BeginsField line) then 1 else 0 := by
      rw [opensOn]
      cases inside <;> cases decide (BeginsField line) <;> decide
    rw [wrapScopedLines_step, List.countP_cons]
    show (if HoldsLabel line ∧ opensOn inside line then 1 else 0) +
      (wrapScopedLines (staysOpen inside line) lines).2 ≤ _
    omega

/-- The rule neither takes lines out nor puts any in. -/
theorem length_wrapScopedLines (inside : Bool) (lines : List (List Char)) :
    (wrapScopedLines inside lines).1.length = lines.length := by
  induction lines generalizing inside with
  | nil => rfl
  | cons line lines ih => rw [wrapScopedLines_step, List.length_cons, ih, List.length_cons]

theorem lineFeed_not_mem_of_wrapScopedLines {inside : Bool} {lines : List (List Char)}
    (h : ∀ line ∈ lines, '\n' ∉ line) : ∀ line ∈ (wrapScopedLines inside lines).1, '\n' ∉ line := by
  intro changed hmem
  obtain ⟨i, hi⟩ := List.mem_iff_getElem?.mp hmem
  rw [getElem?_wrapScopedLines] at hi
  obtain ⟨line, hline, rfl⟩ := Option.map_eq_some_iff.mp hi
  have hfeed := h line (List.mem_of_getElem? hline)
  split
  · cases hchanged : wrapLineLabels line with
    | none => exact hfeed
    | some changed => exact lineFeed_not_mem_of_wrapLineLabels hchanged hfeed
  · exact hfeed

end Edit

/-! ## All lines -/

theorem linesOf_textFieldLabelWrap (text : String) :
    linesOf (Rule.textFieldLabelWrap.apply text).content =
      (Edit.wrapScopedLines false (linesOf text)).1 := by
  have hne : (Edit.wrapScopedLines false (linesOf text)).1 ≠ [] := by
    rw [← List.length_pos_iff, Edit.length_wrapScopedLines, List.length_pos_iff]
    exact splitOn_ne_nil _ _
  show splitOn '\n' (String.ofList (joinWith '\n' _)).toList = _
  rw [String.toList_ofList]
  exact splitOn_joinWith hne
    (Edit.lineFeed_not_mem_of_wrapScopedLines fun line => not_mem_of_mem_splitOn)

theorem openAt_false_iff {lines : List (List Char)} {i : Nat} :
    OpenAt false lines i ↔ InField lines i := by
  simp [OpenAt]

/-- **Which lines of a text change, and into what.** Exactly the lines that stand in a text field and
hold a label are changed. On such a line every label gets the literal of the first, and the gaps
between them stay; the line can be cut at its labels in one way only. The changed lines are what is
counted, and they are no more than the lines on which a text field begins. -/
theorem text_field_lines (text : String) :
    (linesOf (Rule.textFieldLabelWrap.apply text).content).length = (linesOf text).length ∧
    (∀ i line line', (linesOf text)[i]? = some line →
      (linesOf (Rule.textFieldLabelWrap.apply text).content)[i]? = some line' →
        (line' ≠ line ↔ LineRewritten (linesOf text) i) ∧
        (LineRewritten (linesOf text) i →
          ∃ c literal, OnlyCut LabelForm line c ∧ c.values.head? = some literal ∧
            line' = c.render fun _ => wrappedLabel literal)) ∧
    (Rule.textFieldLabelWrap.apply text).count =
      (List.range (linesOf text).length).countP (fun i => LineRewritten (linesOf text) i) ∧
    (Rule.textFieldLabelWrap.apply text).count ≤
      (linesOf text).countP fun line => BeginsField line := by
  have hcount : (Rule.textFieldLabelWrap.apply text).count =
      (Edit.wrapScopedLines false (linesOf text)).2 := rfl
  rw [linesOf_textFieldLabelWrap, hcount]
  refine ⟨Edit.length_wrapScopedLines false _, ?_, ?_, ?_⟩
  · intro i line line' hline hline'
    simp only [Edit.getElem?_wrapScopedLines, hline, Option.map_some, openAt_false_iff,
      Option.some.injEq] at hline'
    subst hline'
    have hrewritten : LineRewritten (linesOf text) i ↔ HoldsLabel line ∧ InField (linesOf text) i := by
      simp [LineRewritten, hline]
    rw [hrewritten]
    by_cases hfield : InField (linesOf text) i
    · rw [if_pos hfield, and_iff_left hfield]
      exact ⟨Edit.getD_wrapLineLabels_ne_iff, Edit.exists_onlyCut_of_holdsLabel⟩
    · rw [if_neg hfield]
      exact ⟨iff_of_false (fun hne => hne rfl) fun h => hfield h.2, fun h => absurd h.2 hfield⟩
  · rw [Edit.count_wrapScopedLines]
    simp only [openAt_false_iff]
    rfl
  · have hle := Edit.count_wrapScopedLines_le false (linesOf text)
    rwa [if_neg Bool.false_ne_true, Nat.zero_add] at hle

/-- A text field with two labels on one line, and a label behind it. -/
def loginField : String := "FTextField(\r\nlabel: 'A', label: '$1'\r\n), label: 'B'"

theorem text_field_lines_login :
    (linesOf loginField)[1]? = some "label: 'A', label: '$1'\r".toList ∧
      LineRewritten (linesOf loginField) 1 ∧
      (linesOf (Rule.textFieldLabelWrap.apply loginField).content)[1]? =
        some "label: const Text('A'), label: const Text('A')\r".toList ∧
      "label: const Text('A'), label: const Text('A')\r".toList ≠
        "label: 'A', label: '$1'\r".toList := by
  have hline : (linesOf loginField)[1]? = some "label: 'A', label: '$1'\r".toList := by
    decide +kernel
  have hline' : (linesOf (Rule.textFieldLabelWrap.apply loginField).content)[1]? =
      some "label: const Text('A'), label: const Text('A')\r".toList := by
    decide +kernel
  have hrewritten : LineRewritten (linesOf loginField) 1 := by decide +kernel
  have hlines := (text_field_lines loginField).2.1 1 _ _ hline hline'
  exact ⟨hline, hrewritten, hline', hlines.1.mpr hrewritten⟩

end WidgetMigration
