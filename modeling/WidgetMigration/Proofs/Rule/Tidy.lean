import WidgetMigration.Proofs.Rule.Matches
import WidgetMigration.Proofs.Text.Replacing
import WidgetMigration.Rule.Edit

/-!
# Tidy texts

A text is tidy if each custom style that a `design` argument is set to is closed, holds no quote and
is the last thing in its argument, and if no label literal runs into the next label (`Tidy`).

Renaming keeps a text tidy (`Tidy.replace_word`). Taking the `design` arguments out of a tidy text
joins nothing that a rule looks for: behind each of them stands a comma or a closing parenthesis,
which none of the forms has at such a place (`Tidy.spares_designArgument`).
-/

namespace WidgetMigration

open WidgetMigration.Text WidgetMigration.Pattern

/-! ## Openings -/

namespace Pattern

/-- How a `design` argument that is set to a custom style begins. -/
def designOpening (blanks₁ blanks₂ : List Char) : List Char :=
  ',' :: ((blanks₁ ++ ("design:".toList ++ blanks₂)) ++ "FButtonCustomStyle(".toList)

/-- How a label that is set to a literal begins. -/
def labelOpening (blanks : List Char) : List Char :=
  'l' :: (("abel:".toList ++ blanks) ++ ['\''])

theorem designOpening_ne_nil (blanks₁ blanks₂ : List Char) : designOpening blanks₁ blanks₂ ≠ [] :=
  List.cons_ne_nil _ _

theorem labelOpening_ne_nil (blanks : List Char) : labelOpening blanks ≠ [] :=
  List.cons_ne_nil _ _

theorem designText_eq_opening (blanks₁ blanks₂ argument : List Char) :
    designText blanks₁ blanks₂ argument = designOpening blanks₁ blanks₂ ++ (argument ++ [')']) := by
  simp only [designText, designOpening, List.append_assoc, List.cons_append]

theorem labelOpening_eq (blanks : List Char) :
    labelOpening blanks = "label:".toList ++ (blanks ++ ['\'']) := by
  have hword : "label:".toList = 'l' :: "abel:".toList := by decide
  rw [hword, labelOpening, List.append_assoc, List.cons_append]

theorem labelText_eq_opening (blanks literal : List Char) :
    labelText blanks literal = labelOpening blanks ++ (literal ++ ['\'']) := by
  simp only [labelText_eq, labelOpening_eq, List.append_assoc, List.cons_append, List.nil_append]

theorem not_mem_of_isBlank {c : Char} {blanks : List Char} (h : ∀ d ∈ blanks, isBlank d = true)
    (hc : isBlank c = false) : c ∉ blanks := by
  intro hmem
  rw [h c hmem] at hc
  cases hc

theorem not_mem_designOpening_tail {c : Char} {blanks₁ blanks₂ : List Char}
    (h₁ : ∀ d ∈ blanks₁, isBlank d = true) (h₂ : ∀ d ∈ blanks₂, isBlank d = true)
    (hc : isBlank c = false) (hwords : c ∉ "design:".toList ++ "FButtonCustomStyle(".toList) :
    c ∉ (designOpening blanks₁ blanks₂).tail := by
  obtain ⟨hdesign, hstyle⟩ := not_or.mp fun h => hwords (List.mem_append.mpr h)
  simp only [designOpening, List.tail_cons, List.mem_append, not_mem_of_isBlank h₁ hc,
    not_mem_of_isBlank h₂ hc, hdesign, hstyle, or_false, not_false_eq_true]

theorem not_mem_designOpening {c : Char} {blanks₁ blanks₂ : List Char}
    (h₁ : ∀ d ∈ blanks₁, isBlank d = true) (h₂ : ∀ d ∈ blanks₂, isBlank d = true)
    (hc : isBlank c = false) (hcomma : c ≠ ',')
    (hwords : c ∉ "design:".toList ++ "FButtonCustomStyle(".toList) :
    c ∉ designOpening blanks₁ blanks₂ := by
  intro hmem
  rcases List.mem_cons.mp hmem with heq | htail
  · exact hcomma heq
  · exact not_mem_designOpening_tail h₁ h₂ hc hwords htail

theorem not_mem_labelOpening_tail {c : Char} {blanks : List Char}
    (h : ∀ d ∈ blanks, isBlank d = true) (hc : isBlank c = false)
    (hword : c ∉ "abel:".toList ++ ['\'']) : c ∉ (labelOpening blanks).tail := by
  obtain ⟨habel, hquote⟩ := not_or.mp fun h => hword (List.mem_append.mpr h)
  simp only [labelOpening, List.tail_cons, List.mem_append, not_mem_of_isBlank h hc, habel, hquote,
    or_false, not_false_eq_true]

end Pattern

/-! ## Behind an argument -/

/-- Nothing but blanks, or a comma or a closing parenthesis behind them. -/
def EndsArgument (s : List Char) : Prop :=
  (s.dropWhile isBlank).head? ∈ [none, some ',', some ')']

instance (s : List Char) : Decidable (EndsArgument s) :=
  inferInstanceAs (Decidable ((s.dropWhile isBlank).head? ∈ [none, some ',', some ')']))

theorem endsArgument_nil : EndsArgument [] :=
  List.mem_cons_self

theorem endsArgument_cons_of_blank {c : Char} (hc : isBlank c = true) (s : List Char) :
    EndsArgument (c :: s) ↔ EndsArgument s := by
  unfold EndsArgument
  rw [List.dropWhile_cons_of_pos hc]

theorem endsArgument_cons_of_not_blank {c : Char} (hc : isBlank c = false) (s : List Char) :
    EndsArgument (c :: s) ↔ c = ',' ∨ c = ')' := by
  unfold EndsArgument
  rw [List.dropWhile_cons_of_neg (by simp [hc])]
  simp

theorem not_endsArgument_append {w : List Char} (hcomma : ',' ∉ w) (hparen : ')' ∉ w)
    (hsolid : ∃ c ∈ w, isBlank c = false) (s : List Char) : ¬ EndsArgument (w ++ s) := by
  induction w with
  | nil =>
    obtain ⟨c, hc, _⟩ := hsolid
    exact absurd hc List.not_mem_nil
  | cons c w ih =>
    obtain ⟨hc, hcomma⟩ := List.ne_and_not_mem_of_not_mem_cons hcomma
    obtain ⟨hc', hparen⟩ := List.ne_and_not_mem_of_not_mem_cons hparen
    rw [List.cons_append]
    cases hblank : isBlank c with
    | true =>
      rw [endsArgument_cons_of_blank hblank]
      refine ih hcomma hparen ?_
      obtain ⟨d, hd, hsolid⟩ := hsolid
      rcases List.mem_cons.mp hd with rfl | hd
      · rw [hblank] at hsolid
        cases hsolid
      · exact ⟨d, hd, hsolid⟩
    | false =>
      rw [endsArgument_cons_of_not_blank hblank]
      rintro (rfl | rfl)
      · exact hc rfl
      · exact hc' rfl

/-- What ends an argument still does after a replacement that takes out only what does so too. -/
theorem endsArgument_replace {α : Type} {r : Recogniser α} {f : α → List Char} {s : List Char}
    (h : ∀ {t m}, t <:+ s → r.read t = some m → EndsArgument t →
      f m.value = [] ∧ EndsArgument m.rest) (hs : EndsArgument s) :
    EndsArgument (r.replace f s) := by
  induction s using r.scan_induction with
  | nil =>
    rw [Recogniser.replace_nil]
    exact endsArgument_nil
  | @found s m hm ih =>
    have hsuffix : m.rest <:+ s := ⟨m.text, r.splits hm⟩
    obtain ⟨hnothing, hrest⟩ := h (List.suffix_refl s) hm hs
    rw [Recogniser.replace_of_read hm, hnothing, List.nil_append]
    exact ih (fun ht => h (ht.trans hsuffix)) hrest
  | @plain c s hn ih =>
    rw [Recogniser.replace_cons hn]
    cases hblank : isBlank c with
    | true =>
      rw [endsArgument_cons_of_blank hblank] at hs ⊢
      exact ih (fun ht => h (ht.trans (List.suffix_cons c s))) hs
    | false =>
      rw [endsArgument_cons_of_not_blank hblank] at hs ⊢
      exact hs

/-! ## Tidy texts -/

/-- A quote stands between any two labels that are set to literals, so no literal runs into the next
label. -/
def LabelsApart (s : List Char) : Prop :=
  ∀ {blanks literal blanks'}, (∀ c ∈ blanks, isBlank c = true) → (∀ c ∈ blanks', isBlank c = true) →
    '\'' ∉ literal → ¬ labelOpening blanks ++ (literal ++ labelOpening blanks') <:+: s

/-- A text whose `design` arguments can be taken out and whose labels can be wrapped with nothing
left to do. -/
structure Tidy (s : List Char) : Prop where
  closed : ∀ {blanks₁ blanks₂ rest}, (∀ c ∈ blanks₁, isBlank c = true) →
    (∀ c ∈ blanks₂, isBlank c = true) → designOpening blanks₁ blanks₂ ++ rest <:+ s →
      ∃ argument tail, rest = argument ++ ')' :: tail ∧ ')' ∉ argument ∧ '\'' ∉ argument ∧
        EndsArgument tail
  apart : LabelsApart s

/-- Labels stay apart in a replacement that spares their openings and takes out no quotes. -/
theorem LabelsApart.replace {α : Type} {r : Recogniser α} {f : α → List Char} {s : List Char}
    (h : LabelsApart s) (hlocal : r.Local)
    (hspares : ∀ {blanks}, (∀ c ∈ blanks, isBlank c = true) → r.Spares f s (labelOpening blanks))
    (hquote : ∀ {t m}, r.read t = some m → m.text <:+: s → '\'' ∉ m.text) :
    LabelsApart (r.replace f s) := by
  intro blanks literal blanks' hblanks hblanks' hliteral hin
  obtain ⟨before, rest, heq⟩ := hin
  have hfirst : r.replace f s =
      before ++ (labelOpening blanks ++ (literal ++ (labelOpening blanks' ++ rest))) := by
    rw [← heq]
    simp only [List.append_assoc]
  obtain ⟨before', rest', hs, _, hrest, _⟩ := Recogniser.exists_of_replace_eq hlocal
    (labelOpening_ne_nil blanks) (hspares hblanks) hfirst
  have hsuffix : rest' <:+ s :=
    ⟨before' ++ labelOpening blanks, by rw [hs, List.append_assoc]⟩
  obtain ⟨literal', rest'', rfl, hliteral', _, _⟩ := Recogniser.exists_of_replace_eq hlocal
    (labelOpening_ne_nil blanks') ((hspares hblanks').of_suffix hsuffix) hrest
  have hinfix : labelOpening blanks ++ (literal' ++ labelOpening blanks') <:+: s :=
    ⟨before', rest'', by rw [hs]; simp only [List.append_assoc]⟩
  refine h hblanks hblanks' (fun hmem => hliteral ?_) hinfix
  rw [← hliteral']
  refine Recogniser.mem_replace (fun {t m} ht hm => hquote hm ?_) hmem
  have htext : m.text <:+: literal' := (List.IsPrefix.isInfix ⟨m.rest, r.splits hm⟩).trans ht.isInfix
  have hliteral : literal' <:+: labelOpening blanks ++ (literal' ++ labelOpening blanks') :=
    List.infix_append' (labelOpening blanks) literal' (labelOpening blanks')
  exact (htext.trans hliteral).trans hinfix

/-! ## Renaming -/

/-- The names that rules replace. -/
inductive OldName : List Char → Prop where
  | handler : OldName oldHandler
  | style (v : ButtonStyle) : OldName v.oldName

/-- The names that rules put in. -/
inductive NewName : List Char → Prop where
  | handler : NewName newHandler
  | style (v : ButtonStyle) : NewName v.newName

variable {old new s : List Char}

theorem OldName.ne_nil (h : OldName old) : old ≠ [] := by
  cases h with
  | handler => decide
  | style v => exact v.oldName_ne_nil

/-- Whether a character is neither a blank nor one that ends an argument or a literal. -/
def isSolid (c : Char) : Bool :=
  !isBlank c && c != ',' && c != ')' && c != '\''

theorem isSolid_iff {c : Char} :
    isSolid c = true ↔ isBlank c = false ∧ c ≠ ',' ∧ c ≠ ')' ∧ c ≠ '\'' := by
  simp [isSolid, and_assoc]

theorem OldName.solid (h : OldName old) :
    ∀ c ∈ old, isBlank c = false ∧ c ≠ ',' ∧ c ≠ ')' ∧ c ≠ '\'' := by
  have hall : old.all isSolid = true := by
    cases h with
    | handler => decide
    | style v => cases v <;> decide
  intro c hc
  exact isSolid_iff.mp (List.all_eq_true.mp hall c hc)

/-- No name begins within characters that stand in none. -/
theorem OldName.avoids_of_not_solid (h : OldName old) {v : List Char}
    (hv : ∀ c ∈ v, isSolid c = false) : Avoids v old := by
  obtain ⟨c, rest, rfl⟩ := List.exists_cons_of_ne_nil h.ne_nil
  refine Avoids.of_not_mem fun hmem => ?_
  have hsolid : isSolid c = true := isSolid_iff.mpr (h.solid c List.mem_cons_self)
  rw [hv c hmem] at hsolid
  cases hsolid

theorem OldName.avoids_label (h : OldName old) :
    Avoids old "label:".toList ∧ Avoids "label:".toList old := by
  cases h with
  | handler => decide
  | style v => cases v <;> decide

theorem NewName.solid (h : NewName new) :
    ∀ c ∈ new, isBlank c = false ∧ c ≠ ',' ∧ c ≠ ')' ∧ c ≠ '\'' := by
  have hall : new.all isSolid = true := by
    cases h with
    | handler => decide
    | style v => cases v <;> decide
  intro c hc
  exact isSolid_iff.mp (List.all_eq_true.mp hall c hc)

/-- The first character of a new name tells it from the openings. -/
theorem NewName.exists_eq_cons (h : NewName new) : ∃ c rest, new = c :: rest ∧
    isBlank c = false ∧ c ∉ "design:".toList ∧ c ∉ "abel:".toList ++ ['\''] := by
  cases h with
  | handler => exact ⟨'o', newHandler.tail, by decide, by decide⟩
  | style v => exact ⟨'V', v.newName.tail, by cases v <;> decide, by decide⟩

theorem NewName.ne_nil (h : NewName new) : new ≠ [] := by
  obtain ⟨c, rest, rfl, _⟩ := h.exists_eq_cons
  exact List.cons_ne_nil c rest

theorem NewName.avoids_style (h : NewName new) : Avoids "FButtonCustomStyle(".toList new := by
  cases h with
  | handler => decide
  | style v => cases v <;> decide

theorem NewName.avoids_label (h : NewName new) : Avoids new "label:".toList := by
  cases h with
  | handler => decide
  | style v => cases v <;> decide

theorem OldName.avoids_new (h : OldName old) (hnew : NewName new) :
    Avoids old new ∧ Avoids new old := by
  cases h with
  | handler =>
    cases hnew with
    | handler => decide
    | style v => cases v <;> decide
  | style v =>
    cases hnew with
    | handler => cases v <;> decide
    | style v' => cases v <;> cases v' <;> decide

/-- A replacement by a new name spares the openings of `design` arguments. -/
theorem NewName.spares_designOpening (hnew : NewName new) {α : Type} (r : Recogniser α)
    {blanks₁ blanks₂ : List Char} (h₁ : ∀ c ∈ blanks₁, isBlank c = true)
    (h₂ : ∀ c ∈ blanks₂, isBlank c = true) :
    r.Spares (fun _ => new) s (designOpening blanks₁ blanks₂) := by
  refine Recogniser.spares_of_avoids (fun _ => ?_) (fun _ => ?_)
  · have hstyle := hnew.avoids_style
    obtain ⟨c, rest, rfl, hblank, hdesign, _⟩ := hnew.exists_eq_cons
    refine (Avoids.of_not_mem ?_).append hstyle
    simp only [List.mem_append, not_mem_of_isBlank h₁ hblank, not_mem_of_isBlank h₂ hblank, hdesign,
      or_false, not_false_eq_true]
  · exact Avoids.of_not_mem fun hcomma => (hnew.solid _ hcomma).2.1 rfl

/-- A replacement by new names spares the openings of labels. -/
theorem spares_labelOpening {α : Type} (r : Recogniser α) {f : α → List Char}
    (hnew : ∀ a, NewName (f a)) {blanks : List Char} (h : ∀ c ∈ blanks, isBlank c = true) :
    r.Spares f s (labelOpening blanks) := by
  refine Recogniser.spares_of_avoids (fun a => ?_) (fun a => ?_)
  · obtain ⟨c, rest, hcons, hblank, _, hlabel⟩ := (hnew a).exists_eq_cons
    rw [hcons]
    exact Avoids.of_not_mem (not_mem_labelOpening_tail h hblank hlabel)
  · rw [labelOpening_eq]
    exact (hnew a).avoids_label.append_right _

/-- **Renaming keeps a text tidy.** -/
theorem Tidy.replace_word (h : Tidy s) (hold : OldName old) (hnew : NewName new) :
    Tidy ((word old hold.ne_nil).replace (fun _ => new) s) where
  closed := by
    intro blanks₁ blanks₂ rest h₁ h₂ hopening
    obtain ⟨before, heq⟩ := hopening
    have hlocal : (word old hold.ne_nil).Local := (finds_word hold.ne_nil).isLocal
    obtain ⟨before', rest', hs, _, rfl, _⟩ := Recogniser.exists_of_replace_eq hlocal
      (designOpening_ne_nil blanks₁ blanks₂) (hnew.spares_designOpening _ h₁ h₂) heq.symm
    obtain ⟨argument, tail, rfl, hparen, hquote, hends⟩ := h.closed h₁ h₂ ⟨before', hs.symm⟩
    have hmatch : ∀ {t m}, (word old hold.ne_nil).read t = some m → ')' ∉ m.text := by
      intro t m hm hin
      rw [((read_word_iff hold.ne_nil).mp hm).1] at hin
      exact (hold.solid _ hin).2.2.1 rfl
    refine ⟨_, _, Recogniser.replace_append_cons hlocal hmatch argument tail, ?_, ?_, ?_⟩
    · exact fun hin => hparen (Recogniser.mem_of_mem_replace
        (fun _ hin' => (hnew.solid _ hin').2.2.1 rfl) hin)
    · exact fun hin => hquote (Recogniser.mem_of_mem_replace
        (fun _ hin' => (hnew.solid _ hin').2.2.2 rfl) hin)
    · refine endsArgument_replace (fun {t m} _ hm hends' => ?_) hends
      rw [((read_word_iff hold.ne_nil).mp hm).2] at hends'
      refine absurd hends' (not_endsArgument_append ?_ ?_ ?_ m.rest)
      · exact fun hin => (hold.solid _ hin).2.1 rfl
      · exact fun hin => (hold.solid _ hin).2.2.1 rfl
      · obtain ⟨c, hc⟩ := List.exists_mem_of_ne_nil old hold.ne_nil
        exact ⟨c, hc, (hold.solid c hc).1⟩
  apart := by
    refine LabelsApart.replace h.apart (finds_word hold.ne_nil).isLocal
      (spares_labelOpening _ fun _ => hnew) ?_
    intro t m hm _ hin
    rw [((read_word_iff hold.ne_nil).mp hm).1] at hin
    exact (hold.solid _ hin).2.2.2 rfl

/-- Renaming brings no old name, and leaves none of those it replaces. -/
theorem OldName.not_isInfix_replace_word {v : List Char} (hv : OldName v) (hold : OldName old)
    (hnew : NewName new) (h : v = old ∨ ¬ v <:+: s) :
    ¬ v <:+: (word old hold.ne_nil).replace (fun _ => new) s := by
  intro hin
  have hspares : (word old hold.ne_nil).Spares (fun _ => new) s v :=
    Recogniser.spares_of_avoids
      (fun _ => (hv.avoids_new hnew).1.of_suffix (List.tail_suffix v))
      (fun _ => (hv.avoids_new hnew).2)
  obtain ⟨rest, hsuffix, hnone⟩ :=
    hspares.exists_of_isInfix (finds_word hold.ne_nil).isLocal hv.ne_nil hin
  rcases h with rfl | h
  · rw [(read_word_iff hold.ne_nil (m := ⟨v, (), rest⟩)).mpr ⟨rfl, rfl⟩] at hnone
    cases hnone
  · exact h ((List.prefix_append v rest).isInfix.trans hsuffix.isInfix)

/-! ## Taking arguments out -/

theorem eq_of_append_cons_eq {c : Char} {x y a b : List Char} (hx : c ∉ x) (hy : c ∉ y)
    (h : x ++ c :: a = y ++ c :: b) : x = y ∧ a = b := by
  have hc : (c != c) = false := by simp
  have hrun := congrArg (List.takeWhile (· != c)) h
  have hrest := congrArg (List.dropWhile (· != c)) h
  rw [takeWhile_append_cons (ne_of_not_mem hx) hc, takeWhile_append_cons (ne_of_not_mem hy) hc] at hrun
  rw [dropWhile_append_cons (ne_of_not_mem hx) hc, dropWhile_append_cons (ne_of_not_mem hy) hc] at hrest
  exact ⟨hrun, List.tail_eq_of_cons_eq hrest⟩

/-- A `design` argument of a tidy text holds no quote, and behind it the argument ends. -/
theorem Tidy.of_designText (h : Tidy s) {blanks₁ blanks₂ argument rest : List Char}
    (h₁ : ∀ c ∈ blanks₁, isBlank c = true) (h₂ : ∀ c ∈ blanks₂, isBlank c = true)
    (hargument : ')' ∉ argument) (hsuffix : designText blanks₁ blanks₂ argument ++ rest <:+ s) :
    '\'' ∉ designText blanks₁ blanks₂ argument ∧ EndsArgument rest := by
  rw [designText_eq_opening, List.append_assoc, List.append_assoc] at hsuffix
  obtain ⟨argument', tail, heq, hparen, hquote, hends⟩ := h.closed h₁ h₂ hsuffix
  obtain ⟨rfl, rfl⟩ := eq_of_append_cons_eq hargument hparen heq
  refine ⟨fun hin => ?_, hends⟩
  rw [designText_eq_opening] at hin
  rcases List.mem_append.mp hin with hopening | htext
  · exact not_mem_designOpening h₁ h₂ (by decide) (by decide) (by decide) hopening
  · rcases List.mem_append.mp htext with hmem | hclose
    · exact hquote hmem
    · exact absurd (List.mem_singleton.mp hclose) (by decide)

theorem Tidy.endsArgument_rest (h : Tidy s) {t : List Char} {m : Match Unit} (ht : t <:+ s)
    (hm : designArgument.read t = some m) : EndsArgument m.rest := by
  obtain ⟨blanks₁, blanks₂, argument, h₁, h₂, hargument, htext, heq⟩ := read_designArgument_iff.mp hm
  rw [heq, htext] at ht
  exact (h.of_designText h₁ h₂ hargument ht).2

/-- **Taking the `design` arguments out of a tidy text** spares what has no comma and no closing
parenthesis behind its first character and does not end in blanks. -/
theorem Tidy.spares_designArgument (h : Tidy s) {v : List Char} (hcomma : ',' ∉ v.tail)
    (hparen : ')' ∉ v.tail)
    (hsolid : ∀ w, w <:+ v.tail → w ≠ [] → ∃ c ∈ w, isBlank c = false) :
    designArgument.Spares (fun _ => []) s v where
  within := by
    intro t m ht hm w hw hne hprefix
    have hrest : m.rest <:+ s := List.IsSuffix.trans ⟨m.text, designArgument.splits hm⟩ ht
    have hends : EndsArgument (designArgument.replace (fun _ => []) m.rest) :=
      endsArgument_replace (fun ht' hm' _ => ⟨rfl, h.endsArgument_rest (ht'.trans hrest) hm'⟩)
        (h.endsArgument_rest ht hm)
    obtain ⟨later, heq⟩ := hprefix
    rw [Recogniser.replace_of_read hm, List.nil_append] at heq
    rw [← heq] at hends
    exact not_endsArgument_append (fun hin => hcomma (hw.subset hin))
      (fun hin => hparen (hw.subset hin)) (hsolid w hw hne) later hends
  outside _ _ := Avoids.nil

/-- What is left of a text at its end holds the last character. -/
theorem mem_of_isSuffix_append_singleton {a w : List Char} {c : Char} (h : w <:+ a ++ [c])
    (hne : w ≠ []) : c ∈ w := by
  rcases List.suffix_concat_iff.mp h with hnil | ⟨a', rfl, _⟩
  · exact absurd hnil hne
  · exact List.mem_append_right a' List.mem_cons_self

theorem Tidy.not_isInfix_of_oldName (h : Tidy s) {v : List Char} (hv : OldName v)
    (hnot : ¬ v <:+: s) : ¬ v <:+: designArgument.replace (fun _ => []) s := by
  intro hin
  have hsolid : ∀ w, w <:+ v.tail → w ≠ [] → ∃ c ∈ w, isBlank c = false := by
    intro w hw hne
    obtain ⟨c, hc⟩ := List.exists_mem_of_ne_nil w hne
    exact ⟨c, hc, (hv.solid c (List.mem_of_mem_tail (hw.subset hc))).1⟩
  have hspares : designArgument.Spares (fun _ => []) s v := h.spares_designArgument
    (fun hcomma => (hv.solid _ (List.mem_of_mem_tail hcomma)).2.1 rfl)
    (fun hparen => (hv.solid _ (List.mem_of_mem_tail hparen)).2.2.1 rfl) hsolid
  obtain ⟨rest, hsuffix, _⟩ := hspares.exists_of_isInfix finds_designArgument.isLocal hv.ne_nil hin
  exact hnot ((List.prefix_append v rest).isInfix.trans hsuffix.isInfix)

/-- No `design` argument is left, not even the beginning of one. -/
theorem Tidy.not_isInfix_designOpening (h : Tidy s) {blanks₁ blanks₂ : List Char}
    (h₁ : ∀ c ∈ blanks₁, isBlank c = true) (h₂ : ∀ c ∈ blanks₂, isBlank c = true) :
    ¬ designOpening blanks₁ blanks₂ <:+: designArgument.replace (fun _ => []) s := by
  intro hin
  have hspares : designArgument.Spares (fun _ => []) s (designOpening blanks₁ blanks₂) := by
    refine h.spares_designArgument ?_ ?_ ?_
    · exact not_mem_designOpening_tail h₁ h₂ (by decide) (by decide)
    · exact not_mem_designOpening_tail h₁ h₂ (by decide) (by decide)
    · intro w hw hne
      have hlast : "FButtonCustomStyle(".toList = "FButtonCustomStyle".toList ++ ['('] := by decide
      rw [designOpening, List.tail_cons, hlast, ← List.append_assoc] at hw
      exact ⟨'(', mem_of_isSuffix_append_singleton hw hne, by decide⟩
  obtain ⟨rest, hsuffix, hnone⟩ := hspares.exists_of_isInfix finds_designArgument.isLocal
    (designOpening_ne_nil blanks₁ blanks₂) hin
  obtain ⟨argument, tail, rfl, hparen, _, _⟩ := h.closed h₁ h₂ hsuffix
  have heq : designOpening blanks₁ blanks₂ ++ (argument ++ ')' :: tail) =
      designText blanks₁ blanks₂ argument ++ tail := by
    rw [designText_eq_opening]
    simp only [List.append_assoc, List.cons_append, List.nil_append]
  have hread : designArgument.read (designOpening blanks₁ blanks₂ ++ (argument ++ ')' :: tail)) =
      some ⟨designText blanks₁ blanks₂ argument, (), tail⟩ :=
    read_designArgument_iff.mpr ⟨blanks₁, blanks₂, argument, h₁, h₂, hparen, rfl, heq⟩
  rw [hread] at hnone
  cases hnone

theorem Tidy.labelsApart_removed (h : Tidy s) :
    LabelsApart (designArgument.replace (fun _ => []) s) := by
  refine LabelsApart.replace h.apart finds_designArgument.isLocal ?_ ?_
  · intro blanks hblanks
    refine h.spares_designArgument ?_ ?_ ?_
    · exact not_mem_labelOpening_tail hblanks (by decide) (by decide)
    · exact not_mem_labelOpening_tail hblanks (by decide) (by decide)
    · intro w hw hne
      rw [labelOpening, List.tail_cons] at hw
      exact ⟨'\'', mem_of_isSuffix_append_singleton hw hne, by decide⟩
  · intro t m hm hin
    obtain ⟨blanks₁, blanks₂, argument, h₁, h₂, hargument, htext, _⟩ :=
      read_designArgument_iff.mp hm
    obtain ⟨before, rest, heq⟩ := hin
    rw [htext] at heq ⊢
    exact (h.of_designText h₁ h₂ hargument ⟨before, by rw [← heq, List.append_assoc]⟩).1

end WidgetMigration
