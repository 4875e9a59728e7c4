import WidgetMigration.Proofs.Rule.Handler
import WidgetMigration.Proofs.Rule.Styles
import WidgetMigration.Proofs.Rule.Wrapping
import WidgetMigration.Proofs.Text.Exchange
import WidgetMigration.Rule.Chain

/-!
# Rules that commute

The press handler can be renamed, the button styles renamed and the labels wrapped in any order, and
each of the three rules counts the same in each order (`rules_commute`).

The two renamings pass over each other's names (`Renames.commutes`). Wrapping does not pass over a
name, since a name can stand in a literal, but it carries the literal along as it is. No name holds a
quote or overlaps with what is around a literal, before or after wrapping, so a renaming makes and
breaks no label (`Renames.independent_labels`).

Rules that commute pairwise make a chain whose order does not matter (`applyRules_perm`). Taking
`design` arguments out commutes with none of the three: it can join what stands around an argument to
a name or a label.
-/

namespace WidgetMigration

open WidgetMigration.Text WidgetMigration.Pattern

/-! ## Edits that commute -/

/-- Two edits commute: the same text is left whichever goes first, and each counts the same. -/
structure Edit.Commutes (e e' : List Char → Edit) : Prop where
  text : ∀ s, (e' (e s).text).text = (e (e' s).text).text
  count : ∀ s, (e (e' s).text).count = (e s).count
  count' : ∀ s, (e' (e s).text).count = (e' s).count

theorem Edit.Commutes.symm {e e' : List Char → Edit} (h : Edit.Commutes e e') :
    Edit.Commutes e' e :=
  ⟨fun s => (h.text s).symm, h.count', h.count⟩

theorem Text.Recogniser.Independent.commutes {α β : Type} {r : Recogniser α} {r' : Recogniser β}
    {f : α → List Char} {f' : β → List Char} (h : r.Independent f r' f') (hlocal : r'.Local) :
    Edit.Commutes (Edit.replacing r f) (Edit.replacing r' f') :=
  ⟨fun s => (h.exchange hlocal s).1, fun s => (h.exchange hlocal s).2.1,
    fun s => (h.exchange hlocal s).2.2⟩

/-! ## Names -/

section Names

variable {v w old : List Char}

/-- No name begins within another one. -/
theorem OldName.avoids_old (hv : OldName v) (hw : OldName w) (hne : v ≠ w) : Avoids v w := by
  cases hv with
  | handler =>
    cases hw with
    | handler => exact absurd rfl hne
    | style v => cases v <;> decide
  | style v =>
    cases hw with
    | handler => cases v <;> decide
    | style v' => exact separate_buttonStyles.apart v v' fun heq => hne (heq ▸ rfl)

theorem OldName.avoids_wrappedLabel (h : OldName old) (literal : List Char) :
    Avoids old (wrappedLabel literal) := by
  rw [wrappedLabel_eq_append]
  exact h.avoids_wrappedOpening.1.append_right _

/-- What begins within a name is no label. -/
theorem passesOver_of_avoids_label (h : Avoids v "label:".toList) : labelLiteral.PassesOver v := by
  refine finds_labelLiteral.passesOver ?_
  rintro _ literal ⟨blanks, _, _, _, rfl⟩
  exact h.append_right _

end Names

/-! ## Renaming -/

variable {β : Type} {r : Recogniser β} {f : β → List Char} {form : List Char → β → Prop}

/-- A recogniser finds old names, and new names are put in for them. -/
structure Renames (r : Recogniser β) (f : β → List Char) (form : List Char → β → Prop) : Prop where
  finds : r.Finds form
  old : ∀ {w b}, form w b → OldName w
  new : ∀ b, NewName (f b)

theorem renames_handler : Renames handler (fun _ => newHandler) fun w _ => w = oldHandler where
  finds := finds_word _
  old h := h ▸ .handler
  new _ := .handler

theorem renames_buttonStyles : Renames (buttonStyles.anyOld ButtonStyle.all) ButtonStyle.newName
    fun w v => w = v.oldName where
  finds := oldForm_buttonStyles ▸ separate_buttonStyles.finds
  old h := h ▸ .style _
  new v := .style v

namespace Renames

theorem passesOver (h : Renames r f form) {v : List Char} (hv : ∀ w, OldName w → Avoids v w) :
    r.PassesOver v :=
  h.finds.passesOver fun w _ hw => hv w (h.old hw)

theorem oldName (h : Renames r f form) {s : List Char} {m : Match β} (hm : r.read s = some m) :
    OldName m.text :=
  h.old ((h.finds s m).mp hm).1

section Different

variable {α : Type} {r' : Recogniser α} {f' : α → List Char} {form' : List Char → α → Prop}

/-- A renaming of other names passes over the old names and the new ones. -/
theorem passedOver (h : Renames r f form) (h' : Renames r' f' form')
    (hne : ∀ {w b w' b'}, form w b → form' w' b' → w ≠ w') {w : List Char} {b : β}
    (hw : form w b) : r'.PassesOver w ∧ r'.PassesOver (f b) := by
  constructor
  · exact h'.finds.passesOver fun w' b' hw' => (h.old hw).avoids_old (h'.old hw') (hne hw hw')
  · exact h'.passesOver fun w' hw' => (hw'.avoids_new (h.new b)).2

/-- **Renamings of different names commute.** -/
theorem commutes (h : Renames r f form) (h' : Renames r' f' form')
    (hne : ∀ {w b w' b'}, form w b → form' w' b' → w ≠ w') :
    Edit.Commutes (Edit.replacing r f) (Edit.replacing r' f') := by
  refine (h.finds.independent h'.finds ?_ ?_ ?_ ?_).commutes h'.finds.isLocal
  · exact fun w b hw => h.passedOver h' hne hw
  · exact fun w' b' hw' => h'.passedOver h (fun hw' hw => (hne hw hw').symm) hw'
  · exact fun w b hw b' => ((h.old hw).avoids_new (h'.new b')).1
  · exact fun w' b' hw' b => ((h'.old hw').avoids_new (h.new b)).1

end Different

/-! ### Around a literal -/

section Quoted

variable {opening literal closing blanks : List Char}

theorem quote_not_mem (h : Renames r f form) {s : List Char} {m : Match β}
    (hm : r.read s = some m) : '\'' ∉ m.text :=
  fun hmem => ((h.oldName hm).solid _ hmem).2.2.2 rfl

theorem quote_not_mem_new (h : Renames r f form) (b : β) : '\'' ∉ f b :=
  fun hmem => ((h.new b).solid _ hmem).2.2.2 rfl

/-- A text with a literal in quotes: nothing is renamed across a quote. -/
theorem endsWithin_quoted (h : Renames r f form) (hclosing : r.PassesOver closing) :
    r.EndsWithin (opening ++ '\'' :: (literal ++ '\'' :: closing)) :=
  (hclosing.endsWithin.append_cons h.finds.isLocal h.quote_not_mem literal).append_cons
    h.finds.isLocal h.quote_not_mem opening

theorem replace_quoted (h : Renames r f form) (hopening : r.PassesOver opening)
    (hclosing : r.PassesOver closing) :
    r.replace f (opening ++ '\'' :: (literal ++ '\'' :: closing)) =
      opening ++ '\'' :: (r.replace f literal ++ '\'' :: closing) := by
  rw [Recogniser.replace_append_cons h.finds.isLocal h.quote_not_mem,
    Recogniser.replace_append_cons h.finds.isLocal h.quote_not_mem, hopening.replace_eq_self,
    hclosing.replace_eq_self]

theorem count_quoted (h : Renames r f form) (hopening : r.PassesOver opening)
    (hclosing : r.PassesOver closing) :
    r.count (opening ++ '\'' :: (literal ++ '\'' :: closing)) = r.count literal := by
  rw [Recogniser.count_append_cons h.finds.isLocal h.quote_not_mem,
    Recogniser.count_append_cons h.finds.isLocal h.quote_not_mem, hopening.count_eq_zero,
    hclosing.count_eq_zero, Nat.zero_add, Nat.add_zero]

theorem passesOver_nil : r.PassesOver [] :=
  fun _ hw hne => absurd (List.suffix_nil.mp hw) hne

theorem passesOver_label (h : Renames r f form) (hblanks : ∀ c ∈ blanks, isBlank c = true) :
    r.PassesOver ("label:".toList ++ blanks) :=
  h.passesOver fun _ hw => hw.avoids_label.2.append
    (hw.avoids_of_not_solid fun c hc => by simp [isSolid, hblanks c hc])

theorem passesOver_wrappedOpening (h : Renames r f form) : r.PassesOver wrappedOpening :=
  h.passesOver fun _ hw => hw.avoids_wrappedOpening.2

theorem passesOver_paren (h : Renames r f form) : r.PassesOver [')'] :=
  h.passesOver fun _ hw => hw.avoids_of_not_solid (List.forall_mem_singleton.mpr (by decide))

/-- A name in a label is renamed in its literal. -/
theorem replace_labelText (h : Renames r f form) (hblanks : ∀ c ∈ blanks, isBlank c = true) :
    r.replace f (labelText blanks literal) = labelText blanks (r.replace f literal) := by
  rw [labelText_eq_append, labelText_eq_append]
  exact h.replace_quoted (h.passesOver_label hblanks) passesOver_nil

theorem replace_wrappedLabel (h : Renames r f form) :
    r.replace f (wrappedLabel literal) = wrappedLabel (r.replace f literal) := by
  rw [wrappedLabel_eq_append, wrappedLabel_eq_append]
  exact h.replace_quoted h.passesOver_wrappedOpening h.passesOver_paren

end Quoted

/-! ### Labels -/

/-- A text that begins with a literal after a renaming did so before. -/
theorem exists_literal (h : Renames r f form) {s literal rest : List Char} (hne : literal ≠ [])
    (hliteral : '\'' ∉ literal) (heq : r.replace f s = literal ++ '\'' :: rest) :
    ∃ literal' rest', literal' ≠ [] ∧ '\'' ∉ literal' ∧ s = literal' ++ '\'' :: rest' := by
  have hmem : '\'' ∈ s := Recogniser.mem_of_mem_replace h.quote_not_mem_new
    (heq ▸ List.mem_append_right literal List.mem_cons_self)
  obtain ⟨literal', rest', rfl, hliteral'⟩ := List.eq_append_cons_of_mem hmem
  refine ⟨literal', rest', ?_, hliteral', rfl⟩
  rintro rfl
  rw [Recogniser.replace_append_cons h.finds.isLocal h.quote_not_mem, Recogniser.replace_nil] at heq
  exact hne (eq_of_append_cons_eq List.not_mem_nil hliteral heq).1.symm

/-- Where no label to wrap begins, none begins after a renaming. -/
theorem read_labelLiteral_eq_none (h : Renames r f form) {c : Char} {s : List Char}
    (hn : labelLiteral.read (c :: s) = none) : labelLiteral.read (c :: r.replace f s) = none := by
  rw [finds_labelLiteral.read_eq_none_iff]
  rintro _ literal ⟨blanks, hblanks, hne, hliteral, rfl⟩
  exact not_isPrefix_replace_label hn hblanks (spares_labelOpening r h.new hblanks).within
    (h.exists_literal hne hliteral)

/-- **A renaming and the wrapping of labels do not disturb each other.** -/
theorem independent_labels (h : Renames r f form) :
    labelLiteral.Independent wrappedLabel r f where
  inside {s m} hm := by
    obtain ⟨blanks, _, _, _, htext, _⟩ := read_labelLiteral_iff.mp hm
    rw [htext, labelText_eq_append, wrappedLabel_eq_append]
    exact ⟨h.endsWithin_quoted passesOver_nil, h.endsWithin_quoted h.passesOver_paren⟩
  carried {s m} hm := by
    obtain ⟨blanks, hblanks, hne, hliteral, htext, _⟩ := read_labelLiteral_iff.mp hm
    refine ⟨r.replace f m.value, h.replace_wrappedLabel.symm, fun x => ?_⟩
    rw [htext, h.replace_labelText hblanks]
    refine finds_labelLiteral.read_append ⟨blanks, hblanks, ?_, ?_, rfl⟩ x
    · exact Recogniser.replace_ne_nil (fun b => (h.new b).ne_nil) hne
    · exact fun hmem => hliteral (Recogniser.mem_of_mem_replace h.quote_not_mem_new hmem)
  counted {s m} hm := by
    obtain ⟨blanks, hblanks, _, _, htext, _⟩ := read_labelLiteral_iff.mp hm
    rw [htext, labelText_eq_append, wrappedLabel_eq_append,
      h.count_quoted (h.passesOver_label hblanks) passesOver_nil,
      h.count_quoted h.passesOver_wrappedOpening h.passesOver_paren]
  passed {s m} hm :=
    ⟨passesOver_of_avoids_label (h.oldName hm).avoids_label.1,
      passesOver_of_avoids_label (h.new m.value).avoids_label⟩
  between hn hn' :=
    ⟨h.read_labelLiteral_eq_none hn, h.finds.read_cons_replace_eq_none
      (fun w b hw literal => (h.old hw).avoids_wrappedLabel literal) hn' hn⟩

end Renames

/-! ## Rules -/

namespace Rule

/-- Two rules commute if their edits do. -/
def Commutes (r r' : Rule) : Prop :=
  Edit.Commutes r.edit r'.edit

variable {r r' : Rule}

theorem Commutes.symm (h : r.Commutes r') : r'.Commutes r :=
  Edit.Commutes.symm h

theorem Commutes.content_apply (h : r.Commutes r') (text : String) :
    (r'.apply (r.apply text).content).content = (r.apply (r'.apply text).content).content := by
  simp only [apply, String.toList_ofList, h.text]

theorem Commutes.count_apply (h : r.Commutes r') (text : String) :
    (r.apply (r'.apply text).content).count = (r.apply text).count := by
  simp only [apply, String.toList_ofList, h.count]

theorem edit_buttonStyleVariant :
    Rule.buttonStyleVariant.edit =
      Edit.replacing (buttonStyles.anyOld ButtonStyle.all) ButtonStyle.newName :=
  funext renameButtonStyles_eq_atOnce

/-- The two renamings and the wrapping of labels commute pairwise. -/
theorem pairwise_commutes :
    [Rule.handlerRename, .buttonStyleVariant, .labelWrap].Pairwise Commutes := by
  have hnames : Rule.handlerRename.Commutes .buttonStyleVariant := by
    rw [Commutes, edit_buttonStyleVariant]
    refine renames_handler.commutes renames_buttonStyles ?_
    rintro _ _ _ v rfl rfl
    cases v <;> decide
  have hhandler : Rule.handlerRename.Commutes .labelWrap :=
    (renames_handler.independent_labels.commutes renames_handler.finds.isLocal).symm
  have hstyles : Rule.buttonStyleVariant.Commutes .labelWrap := by
    rw [Commutes, edit_buttonStyleVariant]
    exact (renames_buttonStyles.independent_labels.commutes
      renames_buttonStyles.finds.isLocal).symm
  exact .cons (List.forall_mem_cons.mpr ⟨hnames, List.forall_mem_singleton.mpr hhandler⟩)
    (.cons (List.forall_mem_singleton.mpr hstyles) (List.pairwise_singleton _ _))

end Rule

/-- **The two renamings and the wrapping of labels commute.** Of any two of these rules, one after the
other, the same text is left whichever goes first, and each of the two counts what it counts on the
text itself. -/
theorem rules_commute {r r' : Rule}
    (hr : r ∈ [Rule.handlerRename, .buttonStyleVariant, .labelWrap])
    (hr' : r' ∈ [Rule.handlerRename, .buttonStyleVariant, .labelWrap]) (hne : r ≠ r')
    (text : String) :
    (r'.apply (r.apply text).content).content = (r.apply (r'.apply text).content).content ∧
      (r.apply (r'.apply text).content).count = (r.apply text).count ∧
      (r'.apply (r.apply text).content).count = (r'.apply text).count := by
  have : Std.Symm Rule.Commutes := ⟨fun _ _ h => h.symm⟩
  have hcommutes : r.Commutes r' := Rule.pairwise_commutes.forall hr hr' hne
  exact ⟨hcommutes.content_apply text, hcommutes.count_apply text, hcommutes.symm.count_apply text⟩

/-- Names in the literal of a label, behind it and before it. -/
def namedLabel : String :=
  "onPressed:label: 'FButtonStyle.primary onPressed:'FButtonStyle.outline"

theorem rules_commute_namedLabel :
    (Rule.labelWrap.apply (Rule.buttonStyleVariant.apply namedLabel).content).content =
        "onPressed:label: const Text('Variant.primary onPressed:')Variant.outline" ∧
      (Rule.buttonStyleVariant.apply (Rule.labelWrap.apply namedLabel).content).count = 2 ∧
      (Rule.labelWrap.apply (Rule.buttonStyleVariant.apply namedLabel).content).count = 1 := by
  obtain ⟨hcontent, hcount, hcount'⟩ := @rules_commute .buttonStyleVariant .labelWrap (by decide)
    (by decide) (by decide) namedLabel
  rw [hcontent, hcount, hcount']
  decide +kernel

/-- Taking a `design` argument out is bound to its place: what it joins is renamed only afterwards. -/
example :
    (applyRules [.designRemoval, .handlerRename] "onPre, design: FButtonCustomStyle()ssed:").content =
        "onPress:" ∧
      (applyRules [.handlerRename, .designRemoval]
        "onPre, design: FButtonCustomStyle()ssed:").content = "onPressed:" := by
  decide +kernel

/-! ## Chains -/

/-- **The order of rules that commute pairwise does not matter**: the text, the total and what each
rule counted are the same. -/
theorem applyRules_perm {rules rules' : List Rule} (hperm : rules.Perm rules')
    (h : rules.Pairwise Rule.Commutes) (text : String) :
    (applyRules rules text).content = (applyRules rules' text).content ∧
      (applyRules rules text).total = (applyRules rules' text).total ∧
      (applyRules rules text).hits.Perm (applyRules rules' text).hits := by
  induction hperm generalizing text with
  | nil => exact ⟨rfl, rfl, .rfl⟩
  | @cons r rules rules' _ ih =>
    obtain ⟨hcontent, htotal, hhits⟩ := ih (List.pairwise_cons.mp h).2 (r.apply text).content
    refine ⟨hcontent, congrArg ((r.apply text).count + ·) htotal, ?_⟩
    simp only [applyRules]
    split
    · exact hhits
    · exact hhits.cons _
  | swap r r' rules =>
    have hr : r'.Commutes r := (List.pairwise_cons.mp h).1 r List.mem_cons_self
    simp only [applyRules, hr.content_apply, hr.count_apply, hr.symm.count_apply]
    refine ⟨trivial, Nat.add_left_comm _ _ _, ?_⟩
    split <;> split
    · exact .rfl
    · exact .rfl
    · exact .rfl
    · exact .swap _ _ _
  | trans hperm _ ih ih' =>
    obtain ⟨hcontent, htotal, hhits⟩ := ih h text
    obtain ⟨hcontent', htotal', hhits'⟩ := ih' (hperm.pairwise h fun hr => hr.symm) text
    exact ⟨hcontent.trans hcontent', htotal.trans htotal', hhits.trans hhits'⟩

end WidgetMigration
