import WidgetMigration.Proofs.Rule.Settled
import WidgetMigration.Proofs.Rule.Wrapping
import WidgetMigration.Proofs.Text.Cutting

/-!
# What the two pattern rules do to a text

Taking `design` arguments out and wrapping labels, said by forms of text alone. `DesignForm` and
`LabelForm` say how a match is written. Every text is cut by each of them in exactly one way into
gaps and matches; the rules keep the gaps, and put nothing or a wrapped label in for a match
(`designArguments_cut`, `labels_cut`).

Parentheses tell how much was done: each argument that is taken out has one closing parenthesis, and
each label that is wrapped gets one more. Quotes are never lost or brought in by wrapping, so what
stands between two of them can be compared before and after: the literals stand where they stood.
-/

namespace WidgetMigration

open WidgetMigration.Text WidgetMigration.Pattern

/-! ## Taking design arguments out -/

/-- A `design` argument has one closing parenthesis, its last character. -/
theorem DesignForm.count_paren {text : List Char} {v : Unit} (h : DesignForm text v) :
    text.count ')' = 1 := by
  obtain ⟨blanks₁, blanks₂, argument, h₁, h₂, hargument, rfl⟩ := h
  rw [designText_eq_opening, List.count_append, List.count_append,
    List.count_eq_zero_of_not_mem (not_mem_designOpening h₁ h₂ (by decide) (by decide) (by decide)),
    List.count_eq_zero_of_not_mem hargument]
  rfl

/-- **What taking the `design` arguments out does.** There is exactly one way to cut a text at
`design` arguments with none beginning in a gap. The gaps are what is left, and the arguments are
what is counted. The closing parentheses become fewer by that number, and the text stays as it is
exactly if no such argument stands anywhere. -/
theorem designArguments_cut (text : String) :
    ∃ c, OnlyCut DesignForm text.toList c ∧
      Rule.designRemoval.apply text = ⟨String.ofList c.gaps.flatten, c.count⟩ ∧
      (Rule.designRemoval.apply text).content.toList.count ')' +
        (Rule.designRemoval.apply text).count = text.toList.count ')' ∧
      ((Rule.designRemoval.apply text).content = text ↔
        ¬ ∃ w, DesignForm w () ∧ w <:+: text.toList) := by
  obtain ⟨c, hcut, hvalues, hrender⟩ := finds_designArgument.exists_onlyCut text.toList
  have happly : Rule.designRemoval.apply text = ⟨String.ofList c.gaps.flatten, c.count⟩ := by
    rw [← c.render_nil, hrender, Cutting.count, hvalues]
    rfl
  refine ⟨c, hcut, happly, ?_, ?_⟩
  · have hcount := hcut.1.count_render (f := fun _ => []) (a := ')') (k := 1) (l := 0)
      fun w v hw => by rw [DesignForm.count_paren hw]; rfl
    rw [happly, String.toList_ofList, ← c.render_nil]
    show (c.render fun _ => []).count ')' + c.count = text.toList.count ')'
    omega
  · rw [← Rule.count_apply_eq_zero_iff]
    show designArgument.count text.toList = 0 ↔ _
    rw [finds_designArgument.count_eq_zero_iff, not_exists]
    exact ⟨fun h w hw => h w () hw.1 hw.2, fun h w _ hw hin => h w ⟨hw, hin⟩⟩

/-- An opening inside an argument belongs to that argument, and one that is not closed is none. -/
example : Rule.designRemoval.apply
    "f(x, design: FButtonCustomStyle(y, design: FButtonCustomStyle()), design: FButtonCustomStyle(" =
      ⟨"f(x), design: FButtonCustomStyle(", 1⟩ := by
  decide +kernel

/-! ## Wrapping labels -/

/-- What wrapping a label adds to the count of a character. -/
theorem LabelForm.count_wrapped {text literal : List Char} (h : LabelForm text literal) {a : Char}
    (ha : isBlank a = false) :
    (wrappedLabel literal).count a + "label:".toList.count a =
      text.count a + (wrappedOpening ++ [')']).count a := by
  obtain ⟨blanks, hblanks, _, _, rfl⟩ := h
  rw [wrappedLabel_eq_append, labelText_eq]
  simp only [List.count_append, List.count_cons, List.count_nil,
    List.count_eq_zero_of_not_mem (not_mem_of_isBlank hblanks ha)]
  omega

/-- **The literals stand where they stood**: they are, in their order, among the parts between quotes
that are the same before and after. What is put before the text or the wrapped one does not matter
if it holds no quote. -/
theorem CutAt.literals_kept {s : List Char} {c : Cutting (List Char)} (hcut : CutAt LabelForm s c)
    {x y : List Char} (hx : '\'' ∉ x) (hy : '\'' ∉ y) :
    (c.values.map fun literal => (literal, literal)).Sublist
      ((splitOn '\'' (x ++ s)).zip (splitOn '\'' (y ++ c.render wrappedLabel))) := by
  induction hcut generalizing x y with
  | last => exact List.nil_sublist _
  | @next gap text rest literal later _ formed _ ih =>
    obtain ⟨blanks, hblanks, _, hliteral, rfl⟩ := formed
    have hbefore : x ++ (gap ++ (labelText blanks literal ++ rest)) =
        (x ++ (gap ++ ("label:".toList ++ blanks))) ++ '\'' :: (literal ++ '\'' :: rest) := by
      rw [labelText_eq_append]
      simp only [List.append_assoc, List.cons_append, List.nil_append]
    have hafter : y ++ (gap ++ (wrappedLabel literal ++ later.render wrappedLabel)) =
        (y ++ (gap ++ wrappedOpening)) ++
          '\'' :: (literal ++ '\'' :: ([')'] ++ later.render wrappedLabel)) := by
      rw [wrappedLabel_append]
      simp only [List.append_assoc, List.cons_append, List.nil_append]
    have hlength : (splitOn '\'' (x ++ (gap ++ ("label:".toList ++ blanks)))).length =
        (splitOn '\'' (y ++ (gap ++ wrappedOpening))).length := by
      rw [length_splitOn, length_splitOn]
      simp only [List.count_append, List.count_eq_zero_of_not_mem hx,
        List.count_eq_zero_of_not_mem hy,
        List.count_eq_zero_of_not_mem (not_mem_of_isBlank hblanks (by decide : isBlank '\'' = false))]
      rfl
    have hlater := ih (x := []) (y := [')']) List.not_mem_nil (by decide)
    rw [List.nil_append] at hlater
    rw [Cutting.values, Cutting.render, hbefore, hafter, splitOn_append_cons, splitOn_append_cons,
      splitOn_append_cons, splitOn_append_cons, splitOn_of_not_mem hliteral, List.zip_append hlength]
    exact (hlater.cons_cons _).trans (List.sublist_append_right _ _)

/-- **What wrapping labels does.** There is exactly one way to cut a text at labels with plain
literals with none beginning in a gap. Each of these labels is put into a text widget with its
literal as it is, and the gaps stay. There are as many quotes as before, and among what stands
between two of them the literals are where they were. The closing parentheses become more by the
number of the labels. -/
theorem labels_cut (text : String) :
    ∃ c, OnlyCut LabelForm text.toList c ∧
      Rule.labelWrap.apply text = ⟨String.ofList (c.render wrappedLabel), c.count⟩ ∧
      (splitOn '\'' (Rule.labelWrap.apply text).content.toList).length =
        (splitOn '\'' text.toList).length ∧
      (c.values.map fun literal => (literal, literal)).Sublist
        ((splitOn '\'' text.toList).zip
          (splitOn '\'' (Rule.labelWrap.apply text).content.toList)) ∧
      (Rule.labelWrap.apply text).content.toList.count ')' =
        text.toList.count ')' + (Rule.labelWrap.apply text).count := by
  obtain ⟨c, hcut, hvalues, hrender⟩ := finds_labelLiteral.exists_onlyCut text.toList
  have happly : Rule.labelWrap.apply text = ⟨String.ofList (c.render wrappedLabel), c.count⟩ := by
    rw [hrender, Cutting.count, hvalues]
    rfl
  refine ⟨c, hcut, happly, ?_, ?_, ?_⟩
  · have hcount := hcut.1.count_render (f := wrappedLabel) (a := '\'') (k := 0) (l := 0)
      fun _ _ h => LabelForm.count_wrapped h (by decide)
    rw [happly, String.toList_ofList, length_splitOn, length_splitOn]
    omega
  · rw [happly, String.toList_ofList]
    exact CutAt.literals_kept hcut.1 (x := []) (y := []) List.not_mem_nil List.not_mem_nil
  · have hcount := hcut.1.count_render (f := wrappedLabel) (a := ')') (k := 0) (l := 1)
      fun _ _ h => LabelForm.count_wrapped h (by decide)
    rw [happly, String.toList_ofList]
    show (c.render wrappedLabel).count ')' = text.toList.count ')' + c.count
    omega

/-- A label without a literal leaves its second quote to nobody, and a literal may hold a label. -/
example : Rule.labelWrap.apply "label: '' label:'label: $1' label: 'x" =
    ⟨"label: '' label: const Text('label: $1') label: 'x", 1⟩ := by
  decide +kernel

end WidgetMigration
