import WidgetMigration.Proofs.Rule.Tidy
import WidgetMigration.Proofs.Text.Scanning

/-!
# Wrapping labels

What wrapping the labels of a text puts in has no form that a rule looks for, so a word that is not a
part of it stands only where it stood before (`isInfix_of_isInfix_wrapped`). A label to wrap is left
only where a literal that was wrapped ends in `label:` and blanks: the quote that was put behind this
literal opens the next one, and the parenthesis behind it comes first in there
(`opensInLiteral_of_label`). If no literal runs into the next label, no label is left
(`LabelsApart.not_isInfix_wrapped`).
-/

namespace WidgetMigration

open WidgetMigration.Text WidgetMigration.Pattern

/-! ## Texts around a character -/

section Around

variable {c : Char} {v word rest before after : List Char}

/-- A text that begins before `c` and holds no `c` ends before it. -/
theorem eq_nil_of_isPrefix_cons (hc : c ∉ v) (h : v <+: c :: rest) : v = [] := by
  cases v with
  | nil => rfl
  | cons d v =>
    rw [(List.cons_prefix_cons.mp h).1] at hc
    exact absurd List.mem_cons_self hc

theorem isInfix_or_isInfix_of_append_cons (hc : c ∉ v) (h : v <:+: before ++ c :: after) :
    v <:+: before ∨ v <:+: after := by
  rcases List.infix_append_iff.mp h with h | h | ⟨left, right, rfl, hleft, hright⟩
  · exact .inl h
  · rcases List.infix_cons_iff.mp h with h | h
    · rw [eq_nil_of_isPrefix_cons hc h]
      exact .inl List.nil_infix
    · exact .inr h
  · have hright := eq_nil_of_isPrefix_cons (fun hmem => hc (List.mem_append_right left hmem)) hright
    rw [hright, List.append_nil]
    exact .inl hleft.isInfix

end Around

/-! ## Wrapping labels -/

section Wrapping

variable {s v blanks literal : List Char}

/-- How a wrapped label begins, up to its literal. -/
def wrappedOpening : List Char := "label: const Text(".toList

theorem wrappedLabel_append (literal rest : List Char) : wrappedLabel literal ++ rest =
    wrappedOpening ++ '\'' :: (literal ++ '\'' :: ')' :: rest) := by
  have hopening : "label: const Text('".toList = wrappedOpening ++ ['\''] := by decide
  have hclose : "')".toList = ['\'', ')'] := by decide
  simp only [wrappedLabel_eq, hopening, hclose, List.append_assoc, List.cons_append, List.nil_append]

theorem wrappedLabel_eq_append (literal : List Char) :
    wrappedLabel literal = wrappedOpening ++ '\'' :: (literal ++ '\'' :: [')']) := by
  rw [← wrappedLabel_append, List.append_nil]

theorem labelText_eq_append (blanks literal : List Char) : labelText blanks literal =
    ("label:".toList ++ blanks) ++ '\'' :: (literal ++ ['\'']) := by
  rw [labelText_eq, List.append_assoc]

theorem OldName.avoids_wrappedOpening {old : List Char} (h : OldName old) :
    Avoids old wrappedOpening ∧ Avoids wrappedOpening old := by
  cases h with
  | handler => decide
  | style v => cases v <;> decide

/-- The literal of a label stands in its text. -/
theorem value_isInfix {m : Match (List Char)} (hm : labelLiteral.read s = some m) :
    m.value <:+: s := by
  obtain ⟨blanks, _, _, _, htext, heq⟩ := read_labelLiteral_iff.mp hm
  rw [heq, htext, labelText_eq_opening]
  exact ⟨labelOpening blanks, ['\''] ++ m.rest, by simp only [List.append_assoc]⟩

theorem not_isPrefix_wrapped {t w : List Char} {m : Match (List Char)}
    (havoids : Avoids v wrappedOpening) (hm : labelLiteral.read t = some m) (hw : w <:+ v)
    (hne : w ≠ []) : ¬ w <+: labelLiteral.replace wrappedLabel t := by
  rintro ⟨x, heq⟩
  rw [Recogniser.replace_of_read hm, wrappedLabel_append] at heq
  exact havoids.append_ne_append hw hne _ _ heq

/-- A word that wrapping puts in nowhere stands only where it stood. -/
theorem isInfix_of_isInfix_wrapped (hne : v ≠ []) (hquote : '\'' ∉ v) (hparen : ')' ∉ v)
    (hopening : ¬ v <:+: wrappedOpening) (havoids : Avoids v.tail wrappedOpening)
    (h : v <:+: labelLiteral.replace wrappedLabel s) : v <:+: s := by
  induction s using labelLiteral.scan_induction with
  | nil =>
    rw [Recogniser.replace_nil] at h
    exact h
  | @found s m hm ih =>
    have hrest : m.rest <:+: s := List.IsSuffix.isInfix ⟨m.text, labelLiteral.splits hm⟩
    rw [Recogniser.replace_of_read hm, wrappedLabel_append] at h
    rcases isInfix_or_isInfix_of_append_cons hquote h with h | h
    · exact absurd h hopening
    rcases isInfix_or_isInfix_of_append_cons hquote h with h | h
    · exact h.trans (value_isInfix hm)
    rcases List.infix_cons_iff.mp h with h | h
    · exact absurd (eq_nil_of_isPrefix_cons hparen h) hne
    · exact (ih h).trans hrest
  | @plain c s hn ih =>
    rw [Recogniser.replace_cons hn] at h
    rcases List.infix_cons_iff.mp h with h | h
    · cases v with
      | nil => exact absurd rfl hne
      | cons d v =>
        obtain ⟨rfl, rest, heq⟩ := List.cons_prefix_cons.mp h
        obtain ⟨rest', rfl, _⟩ := Recogniser.exists_of_replace_eq_append
          (fun _ hread w hw => not_isPrefix_wrapped havoids hread hw) heq.symm
        exact (List.prefix_append (d :: v) rest').isInfix
    · exact (ih h).trans (List.suffix_cons c s).isInfix

theorem avoids_designOpening_tail {blanks₁ blanks₂ : List Char}
    (h₁ : ∀ c ∈ blanks₁, isBlank c = true) (h₂ : ∀ c ∈ blanks₂, isBlank c = true) :
    Avoids (designOpening blanks₁ blanks₂).tail wrappedOpening := by
  have hstyle : Avoids "FButtonCustomStyle(".toList wrappedOpening := by decide
  have hcons : wrappedOpening = 'l' :: wrappedOpening.tail := by decide
  have hdesign : 'l' ∉ "design:".toList := by decide
  refine Avoids.append ?_ hstyle
  rw [hcons]
  refine Avoids.of_not_mem ?_
  simp only [List.mem_append, not_mem_of_isBlank h₁ (by decide : isBlank 'l' = false),
    not_mem_of_isBlank h₂ (by decide : isBlank 'l' = false), hdesign, or_false, not_false_eq_true]

theorem avoids_labelOpening_tail (hblanks : ∀ c ∈ blanks, isBlank c = true) :
    Avoids (labelOpening blanks).tail wrappedOpening := by
  have hword : Avoids "abel:".toList wrappedOpening := by decide
  have hrest : Avoids (blanks ++ ['\'']) wrappedOpening := by
    have hcons : wrappedOpening = 'l' :: wrappedOpening.tail := by decide
    rw [hcons]
    refine Avoids.of_not_mem fun hmem => ?_
    rcases List.mem_append.mp hmem with hmem | hmem
    · exact not_mem_of_isBlank hblanks (by decide) hmem
    · exact absurd (List.mem_singleton.mp hmem) (by decide)
  rw [labelOpening, List.tail_cons, List.append_assoc]
  exact hword.append hrest

/-- Without quotes there is nothing to wrap. -/
theorem replace_eq_self_of_not_mem (h : '\'' ∉ s) : labelLiteral.replace wrappedLabel s = s := by
  refine labelLiteral.replace_eq_self_of_count_eq_zero _
    ((labelLiteral.count_eq_zero_iff s).mpr fun t ht => ?_)
  cases hm : labelLiteral.read t with
  | none => rfl
  | some m =>
    obtain ⟨blanks, _, _, _, htext, heq⟩ := read_labelLiteral_iff.mp hm
    rw [heq, htext, labelText_eq_append, List.append_assoc] at ht
    exact absurd (ht.subset (List.mem_append_right _ List.mem_cons_self)) h

/-- A text that begins with a literal when its labels are wrapped did so before. -/
theorem exists_literal_of_wrapped {rest : List Char} (hne : literal ≠ []) (hliteral : '\'' ∉ literal)
    (heq : labelLiteral.replace wrappedLabel s = literal ++ '\'' :: rest) :
    ∃ literal' rest', literal' ≠ [] ∧ '\'' ∉ literal' ∧ s = literal' ++ '\'' :: rest' := by
  have hmem : '\'' ∈ s := by
    by_contra hnot
    rw [replace_eq_self_of_not_mem hnot] at heq
    exact hnot (heq ▸ List.mem_append_right literal List.mem_cons_self)
  obtain ⟨literal', rest', rfl, hliteral'⟩ := List.eq_append_cons_of_mem hmem
  refine ⟨literal', rest', ?_, hliteral', rfl⟩
  rintro rfl
  have hread : labelLiteral.read ('\'' :: rest') = none := by
    cases hm : labelLiteral.read ('\'' :: rest') with
    | none => rfl
    | some m =>
      obtain ⟨blanks, _, _, _, htext, heq'⟩ := read_labelLiteral_iff.mp hm
      rw [htext, labelText_eq_opening] at heq'
      exact absurd (List.cons.inj heq').1 (by decide)
  rw [List.nil_append, Recogniser.replace_cons hread] at heq
  exact hne (eq_nil_of_isPrefix_cons hliteral ⟨_, heq.symm⟩)

theorem quote_not_mem_word (hblanks : ∀ c ∈ blanks, isBlank c = true) :
    '\'' ∉ "label:".toList ++ blanks := by
  intro hmem
  rcases List.mem_append.mp hmem with hmem | hmem
  · exact absurd hmem (by decide)
  · exact not_mem_of_isBlank hblanks (by decide) hmem

/-- Where no label begins, none does after a replacement, if nothing that is put in begins within the
opening of a label and no literal comes where there was none. -/
theorem not_isPrefix_replace_label {α : Type} {r : Recogniser α} {f : α → List Char} {c : Char}
    (hn : labelLiteral.read (c :: s) = none) (hblanks : ∀ c ∈ blanks, isBlank c = true)
    (hopening : ∀ {t m}, t <:+ s → r.read t = some m →
      ∀ w, w <:+ (labelOpening blanks).tail → w ≠ [] → ¬ w <+: r.replace f t)
    (hkept : ∀ {t rest}, r.replace f t = literal ++ '\'' :: rest →
      ∃ literal' rest', literal' ≠ [] ∧ '\'' ∉ literal' ∧ t = literal' ++ '\'' :: rest') :
    ¬ labelText blanks literal <+: c :: r.replace f s := by
  rintro ⟨rest, heq⟩
  have hcons : labelOpening blanks = 'l' :: (labelOpening blanks).tail := rfl
  rw [labelText_eq_opening, List.append_assoc, List.append_assoc, List.singleton_append, hcons,
    List.cons_append, List.cons.injEq] at heq
  obtain ⟨rfl, heq⟩ := heq
  obtain ⟨rest', rfl, hrest⟩ := Recogniser.exists_of_replace_eq_append hopening heq.symm
  obtain ⟨literal', rest'', hne', hliteral', rfl⟩ := hkept hrest
  have hread := read_labelLiteral_iff (m := ⟨labelText blanks literal', literal', rest''⟩).mpr
    ⟨blanks, hblanks, hne', hliteral', rfl, rfl⟩
  simp only [labelText_eq_opening, List.append_assoc, List.singleton_append] at hread
  rw [← List.cons_append, ← hcons, hread] at hn
  cases hn

/-- Where the scan found no label there is none afterwards. -/
theorem not_isPrefix_wrapped_plain {c : Char} (hn : labelLiteral.read (c :: s) = none)
    (hblanks : ∀ c ∈ blanks, isBlank c = true) (hne : literal ≠ []) (hliteral : '\'' ∉ literal) :
    ¬ labelText blanks literal <+: c :: labelLiteral.replace wrappedLabel s :=
  not_isPrefix_replace_label hn hblanks
    (fun _ hread _ hw => not_isPrefix_wrapped (avoids_labelOpening_tail hblanks) hread hw)
    (exists_literal_of_wrapped hne hliteral)

/-- Where a label can open in a wrapped label and what follows it: in the last characters of the
literal, or behind the whole. Of the two quotes that were put in, the first stands behind a
parenthesis. -/
theorem cut_wrappedLabel {value rest before tail : List Char} (hvalue : '\'' ∉ value)
    (hblanks : ∀ c ∈ blanks, isBlank c = true)
    (h : wrappedLabel value ++ rest = before ++ (("label:".toList ++ blanks) ++ '\'' :: tail)) :
    (∃ start, value = start ++ ("label:".toList ++ blanks) ∧
      before = wrappedOpening ++ '\'' :: start ∧ tail = ')' :: rest) ∨
    ∃ before', before = wrappedLabel value ++ before' ∧
      rest = before' ++ (("label:".toList ++ blanks) ++ '\'' :: tail) := by
  have hword := quote_not_mem_word hblanks
  have hne : ∀ {c x}, c ≠ 'l' → c :: x ≠ ("label:".toList ++ blanks) ++ '\'' :: tail := by
    intro c x hc heq
    exact hc (List.cons.inj heq).1
  rw [wrappedLabel_append] at h
  rcases List.append_eq_append_iff.mp h with ⟨inside, rfl, hfirst⟩ | ⟨last, hopening, hfirst⟩
  · -- The label opens behind the first quote.
    cases inside with
    | nil => exact absurd hfirst (hne (by decide))
    | cons quote inside =>
      obtain ⟨hquote, hinside⟩ := List.cons.inj hfirst
      subst hquote
      rcases List.append_eq_append_iff.mp hinside with
        ⟨behind, rfl, hbehind⟩ | ⟨last, rfl, hlabel⟩
      · cases behind with
        | nil => exact absurd hbehind (hne (by decide))
        | cons quote behind =>
          obtain ⟨hquote, hafter⟩ := List.cons.inj hbehind
          subst hquote
          cases behind with
          | nil => exact absurd hafter (hne (by decide))
          | cons paren before' =>
            obtain ⟨hparen, hrest⟩ := List.cons.inj hafter
            subst hparen
            refine .inr ⟨before', ?_, hrest⟩
            rw [wrappedLabel_append]
      · have hlast : '\'' ∉ last := fun hmem => hvalue (List.mem_append_right inside hmem)
        obtain ⟨rfl, rfl⟩ := eq_of_append_cons_eq hword hlast hlabel
        exact .inl ⟨inside, rfl, rfl, rfl⟩
  · -- The label would end in the parenthesis before the first quote.
    have hlast : '\'' ∉ last := by
      intro hmem
      have hin : '\'' ∈ wrappedOpening := hopening ▸ List.mem_append_right before hmem
      exact absurd hin (by decide)
    obtain ⟨rfl, _⟩ := eq_of_append_cons_eq hword hlast hfirst
    have hsuffix : "label:".toList ++ blanks <:+ "label: const Text".toList ++ ['('] :=
      ⟨before, hopening.symm⟩
    have hparen := mem_of_isSuffix_append_singleton hsuffix
      (List.append_ne_nil_of_left_ne_nil (by decide) blanks)
    rcases List.mem_append.mp hparen with hmem | hmem
    · exact absurd hmem (by decide)
    · exact absurd hmem (not_mem_of_isBlank hblanks (by decide))

/-- A label with some blanks opens in the last characters of a literal of `s` that was wrapped: of the
text that wrapping the labels of `s` leaves, `before` stands before the label and `behind` behind its
opening quote, which is the quote that was put behind the literal. -/
def OpensInLiteral (s before blanks behind : List Char) : Prop :=
  ∃ earlier text start later,
    labelLiteral.pieces s = earlier ++ .found text (start ++ ("label:".toList ++ blanks)) :: later ∧
    before = earlier.flatMap (Piece.render wrappedLabel) ++ (wrappedOpening ++ '\'' :: start) ∧
    behind = ')' :: later.flatMap (Piece.render wrappedLabel)

theorem OpensInLiteral.cons {c : Char} {before behind : List Char}
    (hn : labelLiteral.read (c :: s) = none) (h : OpensInLiteral s before blanks behind) :
    OpensInLiteral (c :: s) (c :: before) blanks behind := by
  obtain ⟨earlier, text, start, later, hpieces, rfl, rfl⟩ := h
  refine ⟨.plain c :: earlier, text, start, later, ?_, rfl, rfl⟩
  rw [labelLiteral.pieces_cons hn, hpieces, List.cons_append]

theorem OpensInLiteral.rest {m : Match (List Char)} {before behind : List Char}
    (hm : labelLiteral.read s = some m) (h : OpensInLiteral m.rest before blanks behind) :
    OpensInLiteral s (wrappedLabel m.value ++ before) blanks behind := by
  obtain ⟨earlier, text, start, later, hpieces, rfl, rfl⟩ := h
  refine ⟨.found m.text m.value :: earlier, text, start, later, ?_, ?_, rfl⟩
  · rw [labelLiteral.pieces_of_read hm, hpieces, List.cons_append]
  · rw [List.flatMap_cons, List.append_assoc]
    rfl

/-- **Where wrapping leaves a label**: only in the last characters of a literal that was wrapped. -/
theorem opensInLiteral_of_label {before rest : List Char} (hblanks : ∀ c ∈ blanks, isBlank c = true)
    (hne : literal ≠ []) (hliteral : '\'' ∉ literal)
    (heq : labelLiteral.replace wrappedLabel s = before ++ (labelText blanks literal ++ rest)) :
    OpensInLiteral s before blanks (literal ++ '\'' :: rest) := by
  have hform : labelText blanks literal ++ rest =
      ("label:".toList ++ blanks) ++ '\'' :: (literal ++ '\'' :: rest) := by
    rw [labelText_eq_append]
    simp only [List.append_assoc, List.cons_append, List.nil_append]
  induction s using labelLiteral.scan_induction generalizing before with
  | nil =>
    rw [Recogniser.replace_nil, hform] at heq
    have hnil := (List.append_eq_nil_iff.mp (List.append_eq_nil_iff.mp heq.symm).2).2
    cases hnil
  | @found s m hm ih =>
    obtain ⟨_, _, _, hvalue, _, _⟩ := read_labelLiteral_iff.mp hm
    rw [Recogniser.replace_of_read hm, hform] at heq
    rcases cut_wrappedLabel hvalue hblanks heq with
      ⟨start, hend, rfl, hbehind⟩ | ⟨before', rfl, hlater⟩
    · refine ⟨[], m.text, start, labelLiteral.pieces m.rest, ?_, rfl, hbehind⟩
      rw [labelLiteral.pieces_of_read hm, hend, List.nil_append]
    · exact (ih (hform ▸ hlater)).rest hm
  | @plain c s hn ih =>
    rw [Recogniser.replace_cons hn] at heq
    cases before with
    | nil =>
      exact absurd ⟨rest, heq.symm⟩ (not_isPrefix_wrapped_plain hn hblanks hne hliteral)
    | cons d before =>
      obtain ⟨hhead, htail⟩ := List.cons.inj heq
      subst hhead
      exact (ih htail).cons hn

/-- Such a literal runs into the next label. -/
theorem LabelsApart.not_opensInLiteral {before behind : List Char} (h : LabelsApart s)
    (hblanks : ∀ c ∈ blanks, isBlank c = true) : ¬ OpensInLiteral s before blanks behind := by
  rintro ⟨earlier, text, start, later, hpieces, _, _⟩
  obtain ⟨rest, rfl, hread, _⟩ := Recogniser.read_of_pieces_eq hpieces
  obtain ⟨blanks₀, hblanks₀, _, hquote, htext, _⟩ := read_labelLiteral_iff.mp hread
  refine absurd ?_ (h hblanks₀ hblanks fun hmem => hquote (List.mem_append_left _ hmem))
  refine ⟨earlier.flatMap Piece.text, rest, ?_⟩
  change text = labelText blanks₀ (start ++ ("label:".toList ++ blanks)) at htext
  rw [htext, labelText_eq_opening, labelOpening_eq blanks]
  simp only [List.append_assoc]

/-- **Wrapping leaves no label to wrap**, if no literal runs into the next label. -/
theorem LabelsApart.not_isInfix_wrapped (h : LabelsApart s) (hblanks : ∀ c ∈ blanks, isBlank c = true)
    (hne : literal ≠ []) (hliteral : '\'' ∉ literal) :
    ¬ labelText blanks literal <:+: labelLiteral.replace wrappedLabel s := by
  rintro ⟨before, rest, heq⟩
  rw [List.append_assoc] at heq
  exact h.not_opensInLiteral hblanks (opensInLiteral_of_label hblanks hne hliteral heq.symm)

end Wrapping

end WidgetMigration
