import Mathlib.Data.Prod.Lex
import WidgetMigration.Proofs.Rule.Matches
import WidgetMigration.Proofs.Text.Scanning
import WidgetMigration.Rule.Chain

/-!
# Rules make texts smaller

Some rules shorten a text and others lengthen it, so the length does not show that rules cannot undo
each other. The **bare quotes** do: the quotes that no opening parenthesis stands directly before.
Wrapping a label puts a parenthesis before a bare quote, and no rule ever makes a quote bare: what
is taken out as a `design` argument ends in a closing parenthesis, so a quote behind it was bare
already. The rules that leave the bare quotes as they are shorten the text.

So a text has a `size`, its bare quotes first and its length second, and each rule that counts
anything makes it smaller (`Rule.shrinks`). Sizes compare along any list of rules
(`applyRules_shrinks`), and a chain that gives back the text it began with counted nothing
(`total_applyRules_eq_zero_iff`).
-/

namespace WidgetMigration

open WidgetMigration.Text WidgetMigration.Pattern

/-! ## Bare quotes -/

/-- The number of quotes that no opening parenthesis stands directly before. `opened` tells whether
one stands before the text. -/
def bareQuotes (opened : Bool) : List Char → Nat
  | [] => 0
  | c :: s => (if c = '\'' ∧ opened = false then 1 else 0) + bareQuotes (c == '(') s

/-- Whether a text ends in an opening parenthesis; the empty text ends as what stands before it. -/
def endsOpened (opened : Bool) : List Char → Bool
  | [] => opened
  | c :: s => endsOpened (c == '(') s

theorem bareQuotes_append (b : Bool) (s t : List Char) :
    bareQuotes b (s ++ t) = bareQuotes b s + bareQuotes (endsOpened b s) t := by
  induction s generalizing b with
  | nil => simp [bareQuotes, endsOpened]
  | cons c s ih =>
    simp only [List.cons_append, bareQuotes, endsOpened, ih]
    omega

/-- Only the first character can tell whether a parenthesis stands before a text. -/
theorem bareQuotes_le_false (b : Bool) (s : List Char) : bareQuotes b s ≤ bareQuotes false s := by
  cases s with
  | nil => exact Nat.le_refl _
  | cons c s =>
    simp only [bareQuotes]
    split <;> simp_all

/-- Characters that are neither quotes nor opening parentheses change nothing. -/
theorem bareQuotes_run {run : List Char} (h : ∀ c ∈ run, c ≠ '\'' ∧ c ≠ '(') (s : List Char) :
    bareQuotes false (run ++ s) = bareQuotes false s := by
  induction run with
  | nil => rfl
  | cons c run ih =>
    obtain ⟨hquote, hparen⟩ := h c List.mem_cons_self
    have hopened : (c == '(') = false := by simpa using hparen
    have hrun := ih fun d hd => h d (List.mem_cons_of_mem _ hd)
    simpa [bareQuotes, hquote, hopened] using hrun

theorem isBlank_ne {c : Char} (h : isBlank c = true) : c ≠ '\'' ∧ c ≠ '(' := by
  constructor <;> (rintro rfl; exact absurd h (by decide))

theorem endsOpened_append_singleton (b : Bool) (s : List Char) (c : Char) :
    endsOpened b (s ++ [c]) = (c == '(') := by
  induction s generalizing b with
  | nil => rfl
  | cons d s ih => exact ih _

/-- A literal and the quote behind it have at most that one bare quote. -/
theorem bareQuotes_literal_le {literal : List Char} (h : '\'' ∉ literal) (b : Bool) :
    bareQuotes b (literal ++ ['\'']) ≤ 1 := by
  induction literal generalizing b with
  | nil => cases b <;> decide
  | cons c literal ih =>
    have hc : c ≠ '\'' := fun he => h (he ▸ List.mem_cons_self)
    have hrest := ih (fun hm => h (List.mem_cons_of_mem _ hm)) (c == '(')
    simpa [bareQuotes, hc] using hrest

/-- The quote that opens a plain literal is bare. -/
theorem bareQuotes_labelText {blanks : List Char} (h : ∀ c ∈ blanks, isBlank c = true)
    (b : Bool) (literal s : List Char) :
    bareQuotes b (labelText blanks literal ++ s) =
      bareQuotes false (literal ++ ['\'']) + bareQuotes false s + 1 := by
  have hsplit : labelText blanks literal ++ s =
      "label:".toList ++ (blanks ++ '\'' :: ((literal ++ ['\'']) ++ s)) := by
    simp [labelText_eq]
  have hword : bareQuotes b "label:".toList = 0 := by cases b <;> decide
  have hopened : endsOpened b "label:".toList = false := rfl
  rw [hsplit, bareQuotes_append, hword, hopened, bareQuotes_run fun c hc => isBlank_ne (h c hc),
    bareQuotes, bareQuotes_append, endsOpened_append_singleton]
  simp only [true_and, if_true, show ('\'' == '(') = false from rfl]
  omega

/-- The quote that opens a wrapped literal is not bare. -/
theorem bareQuotes_wrappedLabel (b : Bool) (literal s : List Char) :
    bareQuotes b (wrappedLabel literal ++ s) =
      bareQuotes false (literal ++ ['\'']) + bareQuotes false s := by
  have hsplit : wrappedLabel literal ++ s =
      "label: const Text('".toList ++ ((literal ++ ['\'']) ++ ')' :: s) := by
    simp [wrappedLabel_eq]
  have hword : bareQuotes b "label: const Text('".toList = 0 := by cases b <;> rfl
  have hopened : endsOpened b "label: const Text('".toList = false := rfl
  have hclose : bareQuotes false (')' :: s) = bareQuotes false s := by simp [bareQuotes]
  rw [hsplit, bareQuotes_append, hword, hopened, bareQuotes_append, endsOpened_append_singleton,
    show ('\'' == '(') = false from rfl, hclose, Nat.zero_add]

/-- Taking out a `design` argument makes no quote bare: one behind it stands behind the closing
parenthesis. -/
theorem bareQuotes_le_designText (b : Bool) (blanks₁ blanks₂ argument s : List Char) :
    bareQuotes b s ≤ bareQuotes b (designText blanks₁ blanks₂ argument ++ s) := by
  have hsplit : designText blanks₁ blanks₂ argument =
      (',' :: (blanks₁ ++ ("design:".toList ++ (blanks₂ ++ ("FButtonCustomStyle(".toList ++
        argument))))) ++ [')'] := by
    simp [designText]
  rw [hsplit, bareQuotes_append, endsOpened_append_singleton]
  have := bareQuotes_le_false b s
  exact Nat.le_add_left_of_le this

/-! ## The size of a text -/

/-- What rules make smaller: the bare quotes of a text, then its length. -/
def size (s : List Char) : Nat ×ₗ Nat :=
  toLex (bareQuotes false s, s.length)

theorem size_lt_of_bareQuotes_lt {s t : List Char} (h : bareQuotes false s < bareQuotes false t) :
    size s < size t :=
  Prod.Lex.toLex_lt_toLex.mpr (.inl h)

theorem size_lt_of_length_lt {s t : List Char} (hle : bareQuotes false s ≤ bareQuotes false t)
    (hlt : s.length < t.length) : size s < size t := by
  rcases Nat.lt_or_eq_of_le hle with h | h
  · exact size_lt_of_bareQuotes_lt h
  · exact Prod.Lex.toLex_lt_toLex.mpr (.inr ⟨h, hlt⟩)

/-- An edit of `s` that counts nothing changes nothing, and one that counts something makes the text
smaller. -/
structure Edit.Shrinks (e : Edit) (s : List Char) : Prop where
  kept : e.count = 0 → e.text = s
  smaller : 0 < e.count → size e.text < size s

namespace Edit

/-- An edit that shrinks a text counts nothing exactly when it gives the text back. -/
theorem Shrinks.count_eq_zero_iff {e : Edit} {s : List Char} (h : e.Shrinks s) :
    e.count = 0 ↔ e.text = s := by
  constructor
  · exact h.kept
  · intro heq
    by_contra hne
    have hlt := h.smaller (Nat.pos_of_ne_zero hne)
    rw [heq] at hlt
    exact lt_irrefl _ hlt

/-- Edits one after the other shrink a text if each shrinks what it is given. -/
theorem Shrinks.andThen {e : Edit} {s : List Char} {f : List Char → Edit} (he : e.Shrinks s)
    (hf : (f e.text).Shrinks e.text) : (e.andThen f).Shrinks s where
  kept h := by
    obtain ⟨hzero, hzero'⟩ := Nat.add_eq_zero_iff.mp h
    exact (hf.kept hzero').trans (he.kept hzero)
  smaller h := by
    show size (f e.text).text < size s
    by_cases hcount : e.count = 0
    · have hlt := hf.smaller (by simpa [Edit.andThen, hcount] using h)
      rwa [he.kept hcount] at hlt ⊢
    · have hlt := he.smaller (Nat.pos_of_ne_zero hcount)
      by_cases hcount' : (f e.text).count = 0
      · rwa [hf.kept hcount']
      · exact (hf.smaller (Nat.pos_of_ne_zero hcount')).trans hlt

/-- An edit that replaces each match by something shorter, and has no quote become bare, shrinks
every text. -/
theorem shrinks_replacing {α : Type} (r : Recogniser α) (f : α → List Char)
    (bare : ∀ {s : List Char} {m : Match α}, r.read s = some m →
      ∀ b t, bareQuotes b (f m.value ++ t) ≤ bareQuotes b (m.text ++ t))
    (shorter : ∀ {s : List Char} {m : Match α}, r.read s = some m →
      (f m.value).length < m.text.length)
    (s : List Char) : (replacing r f s).Shrinks s where
  kept := r.replace_eq_self_of_count_eq_zero f
  smaller h := by
    have hbare := r.weight_replace_le bareQuotes endsOpened bareQuotes_append (f := f) (k := 0)
      (fun hm b t => bare hm b t) false s
    have hlength := r.weight_replace_le (fun (_ : Unit) t => List.length t) (fun q _ => q)
      (fun _ s t => List.length_append) (f := f) (k := 1)
      (fun hm _ t => by simp only [List.length_append]; have := shorter hm; omega) () s
    rw [Nat.zero_mul, Nat.add_zero] at hbare
    change 0 < r.count s at h
    show size (r.replace f s) < size s
    exact size_lt_of_length_lt hbare (by omega)

/-! ## The rules that shorten a text -/

/-- A word without a bare quote that does not end in an opening parenthesis. -/
theorem bareQuotes_word {w : List Char} {b : Bool} (hzero : bareQuotes b w = 0)
    (hends : endsOpened b w = false) (t : List Char) :
    bareQuotes b (w ++ t) = bareQuotes false t := by
  rw [bareQuotes_append, hzero, hends, Nat.zero_add]

theorem shrinks_renameHandler (s : List Char) : (renameHandler s).Shrinks s := by
  refine shrinks_replacing handler _ ?_ ?_ s
  · intro s m hm b t
    obtain ⟨htext, _⟩ := (read_word_iff _).mp hm
    have hnew : bareQuotes b newHandler = 0 := by cases b <;> rfl
    have hold : bareQuotes b oldHandler = 0 := by cases b <;> rfl
    rw [htext, bareQuotes_word hnew rfl, bareQuotes_word hold rfl]
  · intro s m hm
    obtain ⟨htext, _⟩ := (read_word_iff _).mp hm
    rw [htext]
    decide

theorem shrinks_renameButtonStyle (v : ButtonStyle) (s : List Char) :
    (renameButtonStyle v s).Shrinks s := by
  refine shrinks_replacing (buttonStyle v) _ ?_ ?_ s
  · intro s m hm b t
    obtain ⟨htext, _⟩ := (read_word_iff _).mp hm
    have hnew : bareQuotes b v.newName = 0 ∧ endsOpened b v.newName = false := by
      cases v <;> cases b <;> exact ⟨rfl, rfl⟩
    have hold : bareQuotes b v.oldName = 0 ∧ endsOpened b v.oldName = false := by
      cases v <;> cases b <;> exact ⟨rfl, rfl⟩
    rw [htext, bareQuotes_word hnew.1 hnew.2, bareQuotes_word hold.1 hold.2]
  · intro s m hm
    obtain ⟨htext, _⟩ := (read_word_iff _).mp hm
    rw [htext]
    cases v <;> decide

/-- The styles are renamed by edits that each shrink what the ones before left. -/
theorem shrinks_renameButtonStyles (s : List Char) : (renameButtonStyles s).Shrinks s := by
  have fold : ∀ (styles : List ButtonStyle) (e : Edit), e.Shrinks s →
      (styles.foldl (fun e v => e.andThen (renameButtonStyle v)) e).Shrinks s := by
    intro styles
    induction styles with
    | nil => exact fun e he => he
    | cons v styles ih =>
      intro e he
      exact ih _ (he.andThen (shrinks_renameButtonStyle v e.text))
  exact fold _ ⟨s, 0⟩ ⟨fun _ => rfl, fun h => absurd h (lt_irrefl 0)⟩

theorem shrinks_removeDesignArguments (s : List Char) : (removeDesignArguments s).Shrinks s := by
  refine shrinks_replacing designArgument _ ?_ ?_ s
  · intro s m hm b t
    obtain ⟨blanks₁, blanks₂, argument, _, _, _, htext, _⟩ := read_designArgument_iff.mp hm
    rw [htext]
    exact bareQuotes_le_designText b blanks₁ blanks₂ argument t
  · intro s m hm
    exact List.length_pos_iff.mpr (designArgument.nonempty hm)

/-! ## The rules that wrap labels -/

/-- A plain literal has a bare quote more than a wrapped one, whatever that one shows. -/
theorem bareQuotes_wrappedLabel_le {blanks literal : List Char}
    (hblanks : ∀ c ∈ blanks, isBlank c = true) {shown : List Char} (hshown : '\'' ∉ shown)
    (b : Bool) (t : List Char) :
    bareQuotes b (wrappedLabel shown ++ t) ≤ bareQuotes b (labelText blanks literal ++ t) := by
  rw [bareQuotes_wrappedLabel, bareQuotes_labelText hblanks]
  have := bareQuotes_literal_le hshown false
  omega

theorem shrinks_wrapLabels (s : List Char) : (wrapLabels s).Shrinks s where
  kept := labelLiteral.replace_eq_self_of_count_eq_zero wrappedLabel
  smaller h := by
    have hbare := labelLiteral.weight_replace_le bareQuotes endsOpened bareQuotes_append (f := wrappedLabel) (k := 1)
      (fun {s m} hm b t => by
        obtain ⟨blanks, hblanks, _, _, htext, _⟩ := read_labelLiteral_iff.mp hm
        rw [htext, bareQuotes_wrappedLabel, bareQuotes_labelText hblanks]) false s
    change 0 < labelLiteral.count s at h
    exact size_lt_of_bareQuotes_lt (by show bareQuotes false (labelLiteral.replace _ s) < _; omega)

/-- A line that is changed loses a bare quote at its first label, and none comes back behind it:
the literal that the other labels get holds no quote. -/
theorem bareQuotes_wrapLineLabels {line changed : List Char}
    (h : wrapLineLabels line = some changed) (b : Bool) :
    bareQuotes b changed + 1 ≤ bareQuotes b line := by
  obtain ⟨first, hfirst, rfl⟩ := Option.map_eq_some_iff.mp h
  clear h
  induction line using labelLiteral.scan_induction generalizing b with
  | nil => simp at hfirst
  | @found s m hm _ =>
    rw [Recogniser.values_of_read hm, List.head?_cons, Option.some.injEq] at hfirst
    subst hfirst
    obtain ⟨blanks, hblanks, _, hquote, htext, hs⟩ := read_labelLiteral_iff.mp hm
    have hrest := labelLiteral.weight_replace_le bareQuotes endsOpened bareQuotes_append
      (f := fun _ => wrappedLabel m.value) (k := 0) (fun {s m'} hm' b t => by
        obtain ⟨_, hblanks', _, _, htext', _⟩ := read_labelLiteral_iff.mp hm'
        rw [htext', Nat.add_zero]
        exact bareQuotes_wrappedLabel_le hblanks' hquote b t) false m.rest
    have hafter := bareQuotes_wrappedLabel b m.value
      (labelLiteral.replace (fun _ => wrappedLabel m.value) m.rest)
    have hbefore := bareQuotes_labelText hblanks b m.value m.rest
    rw [Recogniser.replace_of_read hm, hs, htext]
    omega
  | @plain c s hn ih =>
    rw [Recogniser.values_cons hn] at hfirst
    have hrest := ih (c == '(') hfirst
    rw [Recogniser.replace_cons hn]
    simp only [bareQuotes]
    omega

/-- A line feed stands between a line and the next, so the lines add up. -/
theorem bareQuotes_joinWith_cons (b : Bool) (line : List Char) {lines : List (List Char)}
    (h : lines ≠ []) :
    bareQuotes b (joinWith '\n' (line :: lines)) =
      bareQuotes b line + bareQuotes false (joinWith '\n' lines) := by
  cases lines with
  | nil => exact absurd rfl h
  | cons next lines =>
    rw [joinWith, bareQuotes_append]
    simp [bareQuotes]

/-- One line of the scoped edit: it stays, or its labels are wrapped and it counts. -/
theorem wrapScopedLines_cons (inside : Bool) (line : List Char) (lines : List (List Char)) :
    ∃ changed later, (changed = none ∨ changed = wrapLineLabels line) ∧
      wrapScopedLines inside (line :: lines) =
        (changed.getD line :: (wrapScopedLines later lines).1,
          (if changed.isSome then 1 else 0) + (wrapScopedLines later lines).2) := by
  refine ⟨if inside || occursIn textFieldCall line then wrapLineLabels line else none, _, ?_, rfl⟩
  split
  · exact .inr rfl
  · exact .inl rfl

/-- Each changed line takes a bare quote off the text. -/
theorem bareQuotes_wrapScopedLines (inside b : Bool) (lines : List (List Char)) :
    bareQuotes b (joinWith '\n' (wrapScopedLines inside lines).1) +
      (wrapScopedLines inside lines).2 ≤ bareQuotes b (joinWith '\n' lines) := by
  induction lines generalizing inside b with
  | nil => exact Nat.le_refl _
  | cons line lines ih =>
    obtain ⟨changed, later, hcases, heq⟩ := wrapScopedLines_cons inside line lines
    have hline : bareQuotes b (changed.getD line) + (if changed.isSome then 1 else 0) ≤
        bareQuotes b line := by
      rcases hcases with rfl | rfl
      · exact Nat.le_refl _
      · cases h : wrapLineLabels line with
        | none => exact Nat.le_refl _
        | some changed => exact bareQuotes_wrapLineLabels h b
    rw [heq]
    cases lines with
    | nil => simpa [wrapScopedLines, joinWith] using hline
    | cons next lines =>
      have hlater := ih later false
      have hne : (wrapScopedLines later (next :: lines)).1 ≠ [] := by
        obtain ⟨_, _, _, heq'⟩ := wrapScopedLines_cons later next lines
        rw [heq']
        exact List.cons_ne_nil _ _
      rw [bareQuotes_joinWith_cons b _ hne, bareQuotes_joinWith_cons b _ (List.cons_ne_nil _ _)]
      omega

/-- If no line is changed, the lines are the same. -/
theorem wrapScopedLines_eq_self {inside : Bool} {lines : List (List Char)}
    (h : (wrapScopedLines inside lines).2 = 0) : (wrapScopedLines inside lines).1 = lines := by
  induction lines generalizing inside with
  | nil => rfl
  | cons line lines ih =>
    obtain ⟨changed, later, _, heq⟩ := wrapScopedLines_cons inside line lines
    rw [heq] at h ⊢
    cases changed with
    | some changed => simp at h
    | none =>
      have hlater : (wrapScopedLines later lines).2 = 0 := by simpa using h
      rw [ih hlater, Option.getD_none]

theorem shrinks_wrapTextFieldLabels (s : List Char) : (wrapTextFieldLabels s).Shrinks s where
  kept h := by
    show joinWith '\n' (wrapScopedLines false (splitOn '\n' s)).1 = s
    rw [wrapScopedLines_eq_self h, joinWith_splitOn]
  smaller h := by
    have hbare := bareQuotes_wrapScopedLines false false (splitOn '\n' s)
    rw [joinWith_splitOn] at hbare
    change 0 < (wrapScopedLines false (splitOn '\n' s)).2 at h
    refine size_lt_of_bareQuotes_lt ?_
    show bareQuotes false (joinWith '\n' (wrapScopedLines false (splitOn '\n' s)).1) < _
    omega

end Edit

/-! ## Rules and chains -/

/-- **Every rule shrinks every text**: one that counts nothing changes nothing, one that counts
something makes the text smaller. -/
theorem Rule.shrinks (r : Rule) (s : List Char) : (r.edit s).Shrinks s := by
  cases r with
  | handlerRename => exact Edit.shrinks_renameHandler s
  | buttonStyleVariant => exact Edit.shrinks_renameButtonStyles s
  | designRemoval => exact Edit.shrinks_removeDesignArguments s
  | labelWrap => exact Edit.shrinks_wrapLabels s
  | textFieldLabelWrap => exact Edit.shrinks_wrapTextFieldLabels s

theorem Rule.count_apply_eq_zero_iff (r : Rule) (text : String) :
    (r.apply text).count = 0 ↔ (r.apply text).content = text := by
  refine (r.shrinks text.toList).count_eq_zero_iff.trans ?_
  show (r.edit text.toList).text = text.toList ↔ String.ofList (r.edit text.toList).text = text
  rw [← String.toList_inj, String.toList_ofList]

/-- **A chain of rules shrinks every text**, whatever rules stand in it and in which order: if they
counted nothing together, the text is the same and there are no hits, and otherwise it is smaller. -/
theorem applyRules_shrinks (rules : List Rule) (text : String) :
    ((applyRules rules text).total = 0 ∧ applyRules rules text = ⟨text, 0, []⟩) ∨
      (0 < (applyRules rules text).total ∧
        size (applyRules rules text).content.toList < size text.toList) := by
  induction rules generalizing text with
  | nil => exact .inl ⟨rfl, rfl⟩
  | cons r rules ih =>
    have hcontent : (r.apply text).content.toList = (r.edit text.toList).text :=
      String.toList_ofList
    rcases Nat.eq_zero_or_pos (r.apply text).count with hzero | hpos
    · have hkept := (r.count_apply_eq_zero_iff text).mp hzero
      have hsame : applyRules (r :: rules) text = applyRules rules text := by
        simp only [applyRules, hzero, if_true, Nat.zero_add, hkept]
      rw [hsame]
      exact ih text
    · have hsmaller := (r.shrinks text.toList).smaller hpos
      refine .inr ⟨Nat.add_pos_left hpos _, ?_⟩
      show size (applyRules rules (r.apply text).content).content.toList < _
      rcases ih (r.apply text).content with ⟨_, hsame⟩ | ⟨_, hlater⟩
      · rwa [hsame, hcontent]
      · exact hlater.trans (by rwa [hcontent])

theorem total_applyRules_eq_zero_iff (rules : List Rule) (text : String) :
    (applyRules rules text).total = 0 ↔ (applyRules rules text).content = text := by
  rcases applyRules_shrinks rules text with ⟨hzero, hsame⟩ | ⟨hpos, hsmaller⟩
  · exact ⟨fun _ => by rw [hsame], fun _ => hzero⟩
  · constructor
    · intro hzero
      exact absurd hzero hpos.ne'
    · intro heq
      rw [heq] at hsmaller
      exact absurd hsmaller (lt_irrefl _)

end WidgetMigration
