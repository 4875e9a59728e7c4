import WidgetMigration.Proofs.Text.Cutting

/-!
# Two replacements in either order

Two replacements in a text can be exchanged if neither disturbs the other (`Recogniser.Independent`):
then the same text is left whichever goes first, and each of them counts the same
(`Recogniser.Independent.exchange`).

Independent does not mean far apart. One of the two may work inside the matches of the other, so long
as it stays inside (`Recogniser.EndsWithin`) and what it leaves there is a match again.
-/

namespace WidgetMigration.Text

namespace Recogniser

variable {α β : Type} {r : Recogniser α} {r' : Recogniser β} {f : α → List Char}
  {f' : β → List Char} {v : List Char}

/-! ## Texts that are scanned apart from what follows -/

/-- No match that begins in `v` goes beyond it: what follows is scanned as if it stood alone. -/
def EndsWithin (r : Recogniser α) (v : List Char) : Prop :=
  ∀ x, r.pieces (v ++ x) = r.pieces v ++ r.pieces x

theorem PassesOver.endsWithin (h : r.PassesOver v) : r.EndsWithin v := by
  intro x
  have hv := h.pieces_append []
  rw [List.append_nil, r.pieces_nil, List.append_nil] at hv
  rw [h.pieces_append, hv]

/-- Behind a character that stands in no match the scan begins anew, so only the part behind the last
of them counts. -/
theorem EndsWithin.append_cons {c : Char} (h : r.EndsWithin v) (hlocal : r.Local)
    (hc : ∀ {t m}, r.read t = some m → c ∉ m.text) (before : List Char) :
    r.EndsWithin (before ++ c :: v) := by
  intro x
  rw [List.append_assoc, List.cons_append, pieces_append_cons hlocal hc,
    pieces_append_cons hlocal hc, h, List.append_assoc, List.cons_append]

theorem EndsWithin.replace_append (h : r.EndsWithin v) (x : List Char) :
    r.replace f (v ++ x) = r.replace f v ++ r.replace f x := by
  rw [replace, h, List.flatMap_append, replace, replace]

theorem EndsWithin.count_append (h : r.EndsWithin v) (x : List Char) :
    r.count (v ++ x) = r.count v + r.count x := by
  rw [count, values, h, List.filterMap_append, List.length_append]
  rfl

theorem PassesOver.replace_eq_self (h : r.PassesOver v) : r.replace f v = v := by
  have hv := h.replace_append (f := f) []
  rwa [List.append_nil, r.replace_nil, List.append_nil] at hv

theorem PassesOver.count_eq_zero (h : r.PassesOver v) : r.count v = 0 := by
  have hv := h.count_append []
  rwa [List.append_nil, r.count_nil] at hv

/-! ## Independent replacements -/

/-- Two replacements do not disturb each other. The second may work inside a match of the first, and
then it stays inside (`inside`), leaves a match for which the same is put in as it leaves of what was
put in for the old one (`carried`), and counts the same in what is put in (`counted`). The first finds
nothing in a match of the second or in what is put in for it (`passed`). Where neither finds anything,
neither does after the other was made (`between`). -/
structure Independent (r : Recogniser α) (f : α → List Char) (r' : Recogniser β)
    (f' : β → List Char) : Prop where
  inside : ∀ {s m}, r.read s = some m → r'.EndsWithin m.text ∧ r'.EndsWithin (f m.value)
  carried : ∀ {s m}, r.read s = some m → ∃ a, f a = r'.replace f' (f m.value) ∧
    ∀ x, r.read (r'.replace f' m.text ++ x) = some ⟨r'.replace f' m.text, a, x⟩
  counted : ∀ {s m}, r.read s = some m → r'.count (f m.value) = r'.count m.text
  passed : ∀ {s m}, r'.read s = some m → r.PassesOver m.text ∧ r.PassesOver (f' m.value)
  between : ∀ {c s}, r.read (c :: s) = none → r'.read (c :: s) = none →
    r.read (c :: r'.replace f' s) = none ∧ r'.read (c :: r.replace f s) = none

/-- **Independent replacements can be exchanged.** -/
theorem Independent.exchange (h : r.Independent f r' f') (hlocal : r'.Local) (s : List Char) :
    r'.replace f' (r.replace f s) = r.replace f (r'.replace f' s) ∧
      r.count (r'.replace f' s) = r.count s ∧ r'.count (r.replace f s) = r'.count s := by
  induction s using r.scan_induction_pair r' with
  | nil => simp
  | @found s m hm ih =>
    obtain ⟨htext, hput⟩ := h.inside hm
    obtain ⟨a, ha, hcarried⟩ := h.carried hm
    obtain ⟨hsame, hcount, hcount'⟩ := ih
    have hread := hcarried (r'.replace f' m.rest)
    have hs : r'.replace f' s = r'.replace f' m.text ++ r'.replace f' m.rest := by
      rw [← htext.replace_append, r.splits hm]
    have hs' : r'.count s = r'.count m.text + r'.count m.rest := by
      rw [← htext.count_append, r.splits hm]
    rw [hs, hs', replace_of_read hm, count_of_read hm, hput.replace_append, hput.count_append,
      replace_of_read hread, count_of_read hread, ha, h.counted hm, hsame, hcount, hcount']
    exact ⟨rfl, rfl, rfl⟩
  | @found' s m hm ih =>
    obtain ⟨hold, hnew⟩ := h.passed hm
    obtain ⟨hsame, hcount, hcount'⟩ := ih
    have hread := hlocal hm (r.replace f m.rest)
    have hs : r.replace f s = m.text ++ r.replace f m.rest := by
      rw [← hold.replace_append, r'.splits hm]
    have hs' : r.count s = r.count m.rest := by
      rw [← hold.count_append m.rest, r'.splits hm]
    rw [hs, hs', replace_of_read hm, count_of_read hm, hnew.replace_append, hnew.count_append,
      replace_of_read hread, count_of_read hread, hsame, hcount, hcount']
    exact ⟨rfl, rfl, rfl⟩
  | @plain c s hn hn' ih =>
    obtain ⟨hread, hread'⟩ := h.between hn hn'
    rw [replace_cons hn, replace_cons hn', count_cons hn, count_cons hn', replace_cons hread,
      replace_cons hread', count_cons hread, count_cons hread', ih.1, ih.2.1, ih.2.2]
    exact ⟨rfl, rfl, rfl⟩

/-- Two replacements are independent if each passes over what the other finds and puts in, and
nothing that one looks for runs into what the other puts in. -/
theorem Finds.independent {form : List Char → α → Prop} {form' : List Char → β → Prop}
    (hr : r.Finds form) (hr' : r'.Finds form')
    (hpassed : ∀ w a, form w a → r'.PassesOver w ∧ r'.PassesOver (f a))
    (hpassed' : ∀ w b, form' w b → r.PassesOver w ∧ r.PassesOver (f' b))
    (havoids : ∀ w a, form w a → ∀ b, Avoids w (f' b))
    (havoids' : ∀ w b, form' w b → ∀ a, Avoids w (f a)) : r.Independent f r' f' where
  inside {s m} hm := by
    obtain ⟨htext, hput⟩ := hpassed m.text m.value ((hr s m).mp hm).1
    exact ⟨htext.endsWithin, hput.endsWithin⟩
  carried {s m} hm := by
    obtain ⟨hform, _⟩ := (hr s m).mp hm
    obtain ⟨htext, hput⟩ := hpassed m.text m.value hform
    refine ⟨m.value, hput.replace_eq_self.symm, fun x => ?_⟩
    rw [htext.replace_eq_self]
    exact hr.read_append hform x
  counted {s m} hm := by
    obtain ⟨htext, hput⟩ := hpassed m.text m.value ((hr s m).mp hm).1
    rw [htext.count_eq_zero, hput.count_eq_zero]
  passed {s m} hm := hpassed' m.text m.value ((hr' s m).mp hm).1
  between hn hn' :=
    ⟨hr.read_cons_replace_eq_none havoids hn hn', hr'.read_cons_replace_eq_none havoids' hn' hn⟩

end Recogniser

end WidgetMigration.Text
