import WidgetMigration.Proofs.Text.Replacing

/-!
# Cutting a text at its matches

What a scan finds, said without a scan. A text is cut into gaps and matches by turns, with a gap at
either end (`Cutting`). The matches have a given form, and no text of that form begins at a character
of a gap (`CutAt`). The form is a relation between what is written and what it means, so it may speak
of a text without saying how it is read.

If a recogniser finds the texts of a form wherever they begin (`Recogniser.Finds`), every text can be
cut in exactly one way, and the scan goes along this cut (`Recogniser.Finds.exists_onlyCut`): what it
finds is what stands between the gaps, and replacing changes nothing else.
-/

namespace WidgetMigration.Text

variable {α : Type}

/-- A text cut at matches: gaps and matches by turns, the last gap behind the last match. -/
inductive Cutting (α : Type) where
  | last (gap : List Char)
  | next (gap text : List Char) (value : α) (later : Cutting α)

namespace Cutting

/-- What stands before, between and behind the matches. -/
def gaps : Cutting α → List (List Char)
  | last gap => [gap]
  | next gap _ _ later => gap :: later.gaps

/-- What the matches mean, from left to right. -/
def values : Cutting α → List α
  | last _ => []
  | next _ _ value later => value :: later.values

/-- The number of matches. -/
def count (c : Cutting α) : Nat :=
  c.values.length

/-- The gaps as they are, and `f v` for each match that means `v`. -/
def render (f : α → List Char) : Cutting α → List Char
  | last gap => gap
  | next gap _ value later => gap ++ (f value ++ later.render f)

/-- A cut with one more character before the first gap. -/
def push (a : Char) : Cutting α → Cutting α
  | last gap => last (a :: gap)
  | next gap text value later => next (a :: gap) text value later

theorem values_push (a : Char) (c : Cutting α) : (c.push a).values = c.values := by
  cases c <;> rfl

theorem render_push (f : α → List Char) (a : Char) (c : Cutting α) :
    (c.push a).render f = a :: c.render f := by
  cases c <;> rfl

/-- If nothing is put in for the matches, the gaps are left. -/
theorem render_nil (c : Cutting α) : c.render (fun _ => []) = c.gaps.flatten := by
  induction c with
  | last gap => exact (List.append_nil gap).symm
  | next gap text value later ih => rw [render, ih, gaps, List.flatten_cons, List.nil_append]

theorem gaps_ne_nil (c : Cutting α) : c.gaps ≠ [] := by
  cases c <;> exact List.cons_ne_nil _ _

/-- If the same is put in for all matches, it stands between the gaps. -/
theorem render_const (w : List Char) (c : Cutting α) :
    c.render (fun _ => w) = w.intercalate c.gaps := by
  induction c with
  | last gap => exact List.intercalate_singleton.symm
  | next gap text value later ih =>
    rw [render, ih, gaps, List.intercalate_cons_of_ne_nil later.gaps_ne_nil, List.append_assoc]

theorem mem_render {f : α → List Char} {c : Cutting α} {v : α} {a : Char} (hv : v ∈ c.values)
    (ha : a ∈ f v) : a ∈ c.render f := by
  induction c with
  | last => exact absurd hv List.not_mem_nil
  | next gap text value later ih =>
    refine List.mem_append_right gap ?_
    rcases List.mem_cons.mp hv with rfl | hv
    · exact List.mem_append_left _ ha
    · exact List.mem_append_right _ (ih hv)

end Cutting

/-! ## Cuts by a form -/

variable {form : List Char → α → Prop}

/-- No text of the form begins at a character of `gap`, where `rest` stands behind the gap. Such a
text may end behind the gap. -/
def Free (form : List Char → α → Prop) (gap rest : List Char) : Prop :=
  ∀ before inside, gap = before ++ inside → inside ≠ [] →
    ∀ w a, form w a → ¬ w <+: inside ++ rest

/-- A text is cut by a form: each match has the form, and no text of that form begins in a gap. -/
inductive CutAt (form : List Char → α → Prop) : List Char → Cutting α → Prop where
  | last {gap : List Char} (free : Free form gap []) : CutAt form gap (.last gap)
  | next {gap text rest : List Char} {value : α} {later : Cutting α}
      (free : Free form gap (text ++ rest)) (formed : form text value)
      (cut : CutAt form rest later) :
      CutAt form (gap ++ (text ++ rest)) (.next gap text value later)

/-- A text is cut by a form in this way and in no other. -/
def OnlyCut (form : List Char → α → Prop) (s : List Char) (c : Cutting α) : Prop :=
  CutAt form s c ∧ ∀ c', CutAt form s c' → c' = c

theorem free_nil {rest : List Char} : Free form [] rest := by
  intro before inside heq hne
  exact absurd (List.append_eq_nil_iff.mp heq.symm).2 hne

theorem free_cons_iff {a : Char} {gap rest : List Char} :
    Free form (a :: gap) rest ↔
      (∀ w v, form w v → ¬ w <+: a :: (gap ++ rest)) ∧ Free form gap rest := by
  constructor
  · intro h
    refine ⟨h [] (a :: gap) rfl (List.cons_ne_nil a gap), ?_⟩
    rintro before inside rfl hne
    exact h (a :: before) inside rfl hne
  · rintro ⟨hhead, hgap⟩ before inside heq hne
    cases before with
    | nil =>
      cases heq
      exact hhead
    | cons b before => exact hgap before inside (List.cons.inj heq).2 hne

theorem CutAt.exists_of_mem_values {s : List Char} {c : Cutting α} (hcut : CutAt form s c) {v : α}
    (hv : v ∈ c.values) : ∃ w, form w v ∧ w <:+: s := by
  induction hcut with
  | last => exact absurd hv List.not_mem_nil
  | @next gap text rest value later _ formed _ ih =>
    rcases List.mem_cons.mp hv with rfl | hv
    · exact ⟨text, formed, gap, rest, List.append_assoc gap text rest⟩
    · obtain ⟨w, hw, hin⟩ := ih hv
      refine ⟨w, hw, hin.trans (List.IsSuffix.isInfix ?_)⟩
      exact (List.suffix_append text rest).trans (List.suffix_append gap _)

/-- If what was found is put in again, nothing changes. -/
theorem CutAt.render_eq {s : List Char} {c : Cutting α} (hcut : CutAt form s c)
    {f : α → List Char} (h : ∀ w v, form w v → f v = w) : c.render f = s := by
  induction hcut with
  | last => rfl
  | @next gap text rest value later _ formed _ ih =>
    rw [Cutting.render, h text value formed, ih]

/-- What stands in a text after the matches were replaced stood there before or was put in. -/
theorem CutAt.mem_of_mem_render {s : List Char} {c : Cutting α} (hcut : CutAt form s c)
    {f : α → List Char} {a : Char} (ha : a ∈ c.render f) :
    a ∈ s ∨ ∃ v ∈ c.values, a ∈ f v := by
  induction hcut with
  | last => exact .inl ha
  | @next gap text rest value later _ _ _ ih =>
    rcases List.mem_append.mp ha with hgap | ha
    · exact .inl (List.mem_append_left _ hgap)
    rcases List.mem_append.mp ha with hput | hlater
    · exact .inr ⟨value, List.mem_cons_self, hput⟩
    · rcases ih hlater with hrest | ⟨v, hv, hput⟩
      · exact .inl (List.mem_append_right _ (List.mem_append_right _ hrest))
      · exact .inr ⟨v, List.mem_cons_of_mem value hv, hput⟩

/-- What the characters of a text count if each match is replaced by something with `l` of them more
and `k` of them less. -/
theorem CutAt.count_render {s : List Char} {c : Cutting α} (hcut : CutAt form s c)
    {f : α → List Char} {a : Char} {k l : Nat}
    (h : ∀ w v, form w v → (f v).count a + k = w.count a + l) :
    (c.render f).count a + k * c.count = s.count a + l * c.count := by
  induction hcut with
  | last => rfl
  | @next gap text rest value later _ formed _ ih =>
    have hmatch := h text value formed
    simp only [Cutting.render, Cutting.count, Cutting.values, List.count_append, List.length_cons,
      Nat.mul_succ] at ih ⊢
    omega

/-! ## Scans -/

namespace Recogniser

variable {r : Recogniser α} {s : List Char}

/-- The recogniser finds the texts of a form, whatever stands behind them, and nothing else. -/
def Finds (r : Recogniser α) (form : List Char → α → Prop) : Prop :=
  ∀ (s : List Char) (m : Match α),
    r.read s = some m ↔ form m.text m.value ∧ s = m.text ++ m.rest

namespace Finds

theorem read_append (hr : r.Finds form) {w : List Char} {a : α} (hw : form w a)
    (rest : List Char) : r.read (w ++ rest) = some ⟨w, a, rest⟩ :=
  (hr _ _).mpr ⟨hw, rfl⟩

theorem read_eq_none_iff (hr : r.Finds form) :
    r.read s = none ↔ ∀ w a, form w a → ¬ w <+: s := by
  constructor
  · rintro hnone w a hw ⟨rest, rfl⟩
    rw [hr.read_append hw] at hnone
    cases hnone
  · intro h
    cases hm : r.read s with
    | none => rfl
    | some m =>
      obtain ⟨hform, heq⟩ := (hr _ _).mp hm
      exact absurd ⟨m.rest, heq.symm⟩ (h m.text m.value hform)

theorem isLocal (hr : r.Finds form) : r.Local := fun hm rest =>
  hr.read_append ((hr _ _).mp hm).1 rest

/-- Nothing is found within a text that avoids all texts of the form. -/
theorem passesOver (hr : r.Finds form) {v : List Char} (hv : ∀ w a, form w a → Avoids v w) :
    r.PassesOver v := by
  intro t ht hne x
  rw [hr.read_eq_none_iff]
  rintro w a hw ⟨rest, heq⟩
  exact (hv w a hw).append_ne_append ht hne x rest heq.symm

/-- Where two scans find nothing, the first finds nothing either after the matches of the second were
replaced, if nothing it looks for can run into what is put in. -/
theorem read_cons_replace_eq_none {β : Type} (hr : r.Finds form) {r' : Recogniser β}
    {f : β → List Char} (havoids : ∀ w a, form w a → ∀ b, Avoids w (f b)) {c : Char}
    (hn : r.read (c :: s) = none) (hn' : r'.read (c :: s) = none) :
    r.read (c :: r'.replace f s) = none := by
  rw [← replace_cons hn', hr.read_eq_none_iff]
  intro w a hw hbegins
  exact hr.read_eq_none_iff.mp hn w a hw (isPrefix_of_isPrefix_replace (havoids w a hw) hbegins)

/-- What is found does not depend on how it is looked for. -/
theorem eq {r' : Recogniser α} (hr : r.Finds form) (hr' : r'.Finds form) : r = r' := by
  have hread : r.read = r'.read := by
    funext s
    exact Option.ext fun m => (hr s m).trans (hr' s m).symm
  obtain ⟨read, splits, nonempty⟩ := r
  obtain ⟨read', splits', nonempty'⟩ := r'
  cases hread
  rfl

/-- A scan counts nothing exactly if no text of the form stands anywhere. -/
theorem count_eq_zero_iff (hr : r.Finds form) :
    r.count s = 0 ↔ ∀ w a, form w a → ¬ w <:+: s := by
  rw [r.count_eq_zero_iff]
  constructor
  · rintro h w a hw ⟨before, rest, rfl⟩
    rw [List.append_assoc] at h
    exact hr.read_eq_none_iff.mp (h _ (List.suffix_append before (w ++ rest))) w a hw
      (List.prefix_append w rest)
  · intro h t ht
    exact hr.read_eq_none_iff.mpr fun w a hw hhead => h w a hw (hhead.isInfix.trans ht.isInfix)

/-! ### Cutting, step by step -/

theorem cutAt_nil_iff (hr : r.Finds form) {c : Cutting α} : CutAt form [] c ↔ c = .last [] := by
  constructor
  · intro h
    generalize hs : ([] : List Char) = s at h
    cases h with
    | last => rw [← hs]
    | @next gap text rest value _ _ formed =>
      have htext := (List.append_eq_nil_iff.mp (List.append_eq_nil_iff.mp hs.symm).2).1
      exact absurd htext (r.nonempty (hr.read_append formed rest))
  · rintro rfl
    exact .last free_nil

/-- A match at the head of a text is the first one that the text is cut at. -/
theorem cutAt_of_read_iff (hr : r.Finds form) {m : Match α} (hm : r.read s = some m)
    {c : Cutting α} : CutAt form s c ↔
      ∃ later, CutAt form m.rest later ∧ c = .next [] m.text m.value later := by
  obtain ⟨hform, heq⟩ := (hr _ _).mp hm
  constructor
  · intro h
    have hprefix : m.text <+: s := ⟨m.rest, heq.symm⟩
    cases h with
    | last free =>
      cases s with
      | nil => rw [r.read_nil] at hm; cases hm
      | cons a s =>
        rw [← List.append_nil s] at hprefix
        exact absurd hprefix ((free_cons_iff.mp free).1 _ _ hform)
    | @next gap text rest value later free formed cut =>
      cases gap with
      | nil =>
        rw [List.nil_append, hr.read_append formed] at hm
        cases hm
        exact ⟨later, cut, rfl⟩
      | cons a gap => exact absurd hprefix ((free_cons_iff.mp free).1 _ _ hform)
  · rintro ⟨later, hlater, rfl⟩
    rw [heq]
    exact .next free_nil hform hlater

/-- A character at which no match begins stands in the first gap. -/
theorem cutAt_cons_iff (hr : r.Finds form) {a : Char} (hn : r.read (a :: s) = none)
    {c : Cutting α} : CutAt form (a :: s) c ↔ ∃ later, CutAt form s later ∧ c = later.push a := by
  have hfree := hr.read_eq_none_iff.mp hn
  constructor
  · intro h
    generalize hs : a :: s = t at h
    cases h with
    | last free =>
      rw [← hs] at free ⊢
      exact ⟨.last s, .last (free_cons_iff.mp free).2, rfl⟩
    | @next gap text rest value later free formed cut =>
      cases gap with
      | nil => exact absurd ⟨rest, hs.symm⟩ (hfree text value formed)
      | cons b gap =>
        obtain ⟨rfl, rfl⟩ := List.cons.inj hs
        exact ⟨.next gap text value later, .next (free_cons_iff.mp free).2 formed cut, rfl⟩
  · rintro ⟨later, hlater, rfl⟩
    cases hlater with
    | last free =>
      refine .last (free_cons_iff.mpr ⟨?_, free⟩)
      rw [List.append_nil]
      exact hfree
    | next free formed cut => exact .next (free_cons_iff.mpr ⟨hfree, free⟩) formed cut

theorem cutAt_unique (hr : r.Finds form) {c c' : Cutting α} (h : CutAt form s c)
    (h' : CutAt form s c') : c = c' := by
  induction s using r.scan_induction generalizing c c' with
  | nil => rw [hr.cutAt_nil_iff.mp h, hr.cutAt_nil_iff.mp h']
  | found hm ih =>
    obtain ⟨later, hlater, rfl⟩ := (hr.cutAt_of_read_iff hm).mp h
    obtain ⟨later', hlater', rfl⟩ := (hr.cutAt_of_read_iff hm).mp h'
    rw [ih hlater hlater']
  | plain hn ih =>
    obtain ⟨later, hlater, rfl⟩ := (hr.cutAt_cons_iff hn).mp h
    obtain ⟨later', hlater', rfl⟩ := (hr.cutAt_cons_iff hn).mp h'
    rw [ih hlater hlater']

/-- A scan goes along a cut. -/
theorem exists_cutAt (hr : r.Finds form) (s : List Char) :
    ∃ c, CutAt form s c ∧ c.values = r.values s ∧ ∀ f, c.render f = r.replace f s := by
  induction s using r.scan_induction with
  | nil =>
    refine ⟨.last [], hr.cutAt_nil_iff.mpr rfl, r.values_nil.symm, fun f => ?_⟩
    exact (r.replace_nil f).symm
  | found hm ih =>
    obtain ⟨later, hlater, hvalues, hrender⟩ := ih
    refine ⟨_, (hr.cutAt_of_read_iff hm).mpr ⟨later, hlater, rfl⟩, ?_, fun f => ?_⟩
    · rw [values_of_read hm, Cutting.values, hvalues]
    · rw [replace_of_read hm, Cutting.render, hrender, List.nil_append]
  | plain hn ih =>
    obtain ⟨later, hlater, hvalues, hrender⟩ := ih
    refine ⟨_, (hr.cutAt_cons_iff hn).mpr ⟨later, hlater, rfl⟩, ?_, fun f => ?_⟩
    · rw [values_cons hn, Cutting.values_push, hvalues]
    · rw [replace_cons hn, Cutting.render_push, hrender]

/-- **Every text is cut by a form in exactly one way**, and the scan for the form goes along this
cut. -/
theorem exists_onlyCut (hr : r.Finds form) (s : List Char) :
    ∃ c, OnlyCut form s c ∧ c.values = r.values s ∧ ∀ f, c.render f = r.replace f s := by
  obtain ⟨c, hcut, hscan⟩ := hr.exists_cutAt s
  exact ⟨c, ⟨hcut, fun _ hcut' => hr.cutAt_unique hcut' hcut⟩, hscan⟩

end Finds

end Recogniser

end WidgetMigration.Text
