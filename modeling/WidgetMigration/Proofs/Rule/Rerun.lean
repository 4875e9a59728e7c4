import WidgetMigration.Proofs.Rule.Settled
import WidgetMigration.Proofs.Rule.Wrapping

/-!
# Running the rules again

Whether a second run of the rules finds something to do. It does not exactly if the first one left a
settled text, and every tidy text is settled by one run (`applyAll_applyAll`). Not every text is:
the closing quote of a wrapped literal can open another one.

The last step to a settled text is the wrapping of labels, which leaves a label to wrap only where a
literal runs into the next one.
-/

namespace WidgetMigration

open WidgetMigration.Text WidgetMigration.Pattern

/-! ## One run -/

section Chain

variable {s : List Char}

/-- The first two rules keep a text tidy and leave no old name. -/
theorem Tidy.renamed (h : Tidy s) :
    Tidy (Edit.renameButtonStyles (Edit.renameHandler s).text).text ∧
      ∀ v, OldName v → ¬ v <:+: (Edit.renameButtonStyles (Edit.renameHandler s).text).text := by
  let rename (v : ButtonStyle) (s : List Char) := (buttonStyle v).replace (fun _ => v.newName) s
  have htidy : ∀ (v : ButtonStyle) {s}, Tidy s → Tidy (rename v s) := fun v _ h =>
    h.replace_word (.style v) (.style v)
  have hgone : ∀ (v : ButtonStyle) {w s}, OldName w → (w = v.oldName ∨ ¬ w <:+: s) →
      ¬ w <:+: rename v s := fun v _ _ hw h =>
    hw.not_isInfix_replace_word (.style v) (.style v) h
  have hhandler : Tidy (Edit.renameHandler s).text := h.replace_word .handler .handler
  refine ⟨htidy .destructive (htidy .outline (htidy .primary hhandler)), fun v hv => ?_⟩
  cases hv with
  | handler =>
    have hnot := OldName.handler.not_isInfix_replace_word .handler .handler (s := s) (.inl rfl)
    exact hgone .destructive .handler (.inr (hgone .outline .handler (.inr
      (hgone .primary .handler (.inr hnot)))))
  | style v =>
    cases v with
    | primary =>
      have hnot := hgone .primary (.style .primary) (s := (Edit.renameHandler s).text) (.inl rfl)
      exact hgone .destructive (.style _) (.inr (hgone .outline (.style _) (.inr hnot)))
    | outline =>
      have hnot := hgone .outline (.style .outline)
        (s := rename .primary (Edit.renameHandler s).text) (.inl rfl)
      exact hgone .destructive (.style _) (.inr hnot)
    | destructive => exact hgone .destructive (.style .destructive) (.inl rfl)

/-- Wrapping the labels that are left settles a text in which the other rules find nothing. -/
theorem settled_wrapLabels (hnames : ∀ v, OldName v → ¬ v <:+: s)
    (hdesign : ∀ {blanks₁ blanks₂}, (∀ c ∈ blanks₁, isBlank c = true) →
      (∀ c ∈ blanks₂, isBlank c = true) → ¬ designOpening blanks₁ blanks₂ <:+: s)
    (hlabels : LabelsApart s) : Settled (Edit.wrapLabels s).text := by
  have hname : ∀ v, OldName v → ¬ v <:+: (Edit.wrapLabels s).text := by
    intro v hv hin
    have hquote : '\'' ∉ v := fun hmem => (hv.solid _ hmem).2.2.2 rfl
    have hparen : ')' ∉ v := fun hmem => (hv.solid _ hmem).2.2.1 rfl
    obtain ⟨hput, hput'⟩ := hv.avoids_wrappedOpening
    exact hnames v hv (isInfix_of_isInfix_wrapped hv.ne_nil hquote hparen
      (hput'.not_isInfix hv.ne_nil) (hput.of_suffix (List.tail_suffix v)) hin)
  intro w hw hin
  cases hw with
  | handler => exact hname _ .handler hin
  | style v => exact hname _ (.style v) hin
  | @design blanks₁ blanks₂ argument h₁ h₂ hargument =>
    rw [designText_eq_opening] at hin
    have hopening := (List.prefix_append (designOpening blanks₁ blanks₂) _).isInfix.trans hin
    refine hdesign h₁ h₂ (isInfix_of_isInfix_wrapped (designOpening_ne_nil blanks₁ blanks₂)
      ?_ ?_ ?_ (avoids_designOpening_tail h₁ h₂) hopening)
    · exact not_mem_designOpening h₁ h₂ (by decide) (by decide) (by decide)
    · exact not_mem_designOpening h₁ h₂ (by decide) (by decide) (by decide)
    · intro hin'
      have hcomma : ',' ∈ wrappedOpening := hin'.subset List.mem_cons_self
      exact absurd hcomma (by decide)
  | label hblanks hne hliteral => exact hlabels.not_isInfix_wrapped hblanks hne hliteral hin

/-- **One run settles a tidy text.** -/
theorem Tidy.settled_applyAll {text : String} (h : Tidy text.toList) :
    Settled (applyAll text).content.toList := by
  obtain ⟨htidy, hnames⟩ := h.renamed
  have hsettled : Settled (Edit.wrapLabels (Edit.removeDesignArguments
      (Edit.renameButtonStyles (Edit.renameHandler text.toList).text).text).text).text :=
    settled_wrapLabels (fun v hv => htidy.not_isInfix_of_oldName hv (hnames v hv))
      (fun h₁ h₂ => htidy.not_isInfix_designOpening h₁ h₂) htidy.labelsApart_removed
  have hcontent : (applyAll text).content.toList = (Edit.wrapTextFieldLabels (Edit.wrapLabels
      (Edit.removeDesignArguments (Edit.renameButtonStyles
        (Edit.renameHandler text.toList).text).text).text).text).text := by
    simp only [applyAll, applyRules, Rule.all, Rule.apply, Rule.edit, String.toList_ofList]
  have hcount := count_wrapTextFieldLabels_eq_zero ((count_labelLiteral_eq_zero_iff _).mpr
    fun _ _ hblanks hne hliteral => hsettled _ (.label hblanks hne hliteral))
  rw [hcontent, (Edit.shrinks_wrapTextFieldLabels _).kept hcount]
  exact hsettled

end Chain

/-! ## Another run -/

/-- **When a second run of the rules does nothing**: exactly if the first one left a settled text,
and always if the text was tidy. -/
theorem applyAll_applyAll (text : String) :
    (applyAll (applyAll text).content = ⟨(applyAll text).content, 0, []⟩ ↔
      Settled (applyAll text).content.toList) ∧
    (Tidy text.toList →
      applyAll (applyAll text).content = ⟨(applyAll text).content, 0, []⟩) := by
  have hiff := applyAll_eq_self_iff (applyAll text).content
  exact ⟨hiff, fun h => hiff.mpr h.settled_applyAll⟩

/-- A call with a `design` argument, a handler and a label. -/
def saveButton : String :=
  "f(x, design: FButtonCustomStyle(), onPressed: g, label: 'Save')"

theorem tidy_saveButton : Tidy saveButton.toList where
  closed := by
    intro blanks₁ blanks₂ rest _ _ hopening
    have hdrop : ∀ t ∈ saveButton.toList.tails, "FButtonCustomStyle(".toList <+: t →
        t.drop 19 = ")".toList ++ ", onPressed: g, label: 'Save')".toList := by
      decide +kernel
    have hstyle : "FButtonCustomStyle(".toList ++ rest <:+ saveButton.toList := by
      refine List.IsSuffix.trans ?_ hopening
      rw [designOpening, ← List.cons_append, List.append_assoc]
      exact List.suffix_append _ _
    have hrest := hdrop _ ((List.mem_tails _ _).mpr hstyle) (List.prefix_append _ rest)
    rw [List.drop_left' (by decide)] at hrest
    exact ⟨[], _, hrest, List.not_mem_nil, List.not_mem_nil, by decide +kernel⟩
  apart := by
    intro blanks literal blanks' _ _ _ hin
    have hcount := hin.sublist.count_le 'b'
    have hone : saveButton.toList.count 'b' = 1 := by decide +kernel
    have htwo : ∀ blanks, 1 ≤ (labelOpening blanks).count 'b' := fun blanks =>
      List.one_le_count_iff.mpr (by simp [labelOpening])
    have := htwo blanks
    have := htwo blanks'
    simp only [List.count_append] at hcount
    omega

theorem applyAll_applyAll_saveButton :
    Tidy saveButton.toList ∧ applyAll (applyAll saveButton).content =
      ⟨"f(x, onPress: g, label: const Text('Save'))", 0, []⟩ := by
  have hcontent : (applyAll saveButton).content =
      "f(x, onPress: g, label: const Text('Save'))" := by
    decide +kernel
  have hagain := (applyAll_applyAll saveButton).2 tidy_saveButton
  rw [hcontent] at hagain ⊢
  exact ⟨tidy_saveButton, hagain⟩

/-- The closing quote of a wrapped literal can open the next literal. -/
theorem applyAll_not_idempotent :
    ¬ ∀ text : String,
      applyAll (applyAll text).content = ⟨(applyAll text).content, 0, []⟩ := by
  intro h
  have hlabel := h "label: 'label: 'A'"
  exact absurd hlabel (by decide +kernel)

/-- What stood around a `design` argument can join to the old name of the handler. -/
example : applyAll "onPre, design: FButtonCustomStyle()ssed:" =
    ⟨"onPressed:", 1, [⟨"design-param-removal", 1⟩]⟩ := by
  decide +kernel

/-- **Every text is settled after some runs**, as each run that does something makes it smaller. -/
theorem exists_settled (text : String) :
    ∃ n, Settled ((fun s => (applyAll s).content)^[n] text).toList := by
  induction hsize : size text.toList using WellFoundedLT.induction generalizing text with
  | ind s ih =>
    subst hsize
    rcases applyRules_shrinks Rule.all text with ⟨_, hsame⟩ | ⟨_, hsmaller⟩
    · exact ⟨0, (applyAll_eq_self_iff text).mp hsame⟩
    · obtain ⟨n, hn⟩ := ih _ hsmaller (applyAll text).content rfl
      exact ⟨n + 1, hn⟩

end WidgetMigration
