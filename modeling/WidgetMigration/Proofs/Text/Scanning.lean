import WidgetMigration.Text.Scan

/-!
# Scanning, step by step

The folds over the pieces of a text, as equations along the text: a match at the head is replaced and
counted as a whole (`replace_of_read`, `count_of_read`), any other character stays
(`replace_cons`, `count_cons`). `scan_induction` is the induction that goes with these equations, so
no proof about a rule opens `pieces`.

The last section says what it means that a scan found nothing: `count_eq_zero_iff`, no match begins
anywhere in the text, not only at the places the scan looked at.
-/

namespace WidgetMigration.Text

namespace Recogniser

variable {α : Type} (r : Recogniser α)

/-- Induction along a scan: behind a match at the head, or behind a character at which none begins. -/
@[elab_as_elim]
theorem scan_induction {motive : List Char → Prop} (nil : motive [])
    (found : ∀ {s : List Char} {m : Match α}, r.read s = some m → motive m.rest → motive s)
    (plain : ∀ {c : Char} {s : List Char}, r.read (c :: s) = none → motive s → motive (c :: s))
    (s : List Char) : motive s := by
  fun_induction r.pieces s with
  | case1 => exact nil
  | case2 c s m h ih => exact found h ih
  | case3 c s h ih => exact plain h ih

/-- Induction along two scans: behind a match of either at the head, or behind a character at which
neither finds one. -/
@[elab_as_elim]
theorem scan_induction_pair {β : Type} (r' : Recogniser β) {motive : List Char → Prop}
    (nil : motive [])
    (found : ∀ {s : List Char} {m : Match α}, r.read s = some m → motive m.rest → motive s)
    (found' : ∀ {s : List Char} {m : Match β}, r'.read s = some m → motive m.rest → motive s)
    (plain : ∀ {c : Char} {s : List Char}, r.read (c :: s) = none → r'.read (c :: s) = none →
      motive s → motive (c :: s))
    (s : List Char) : motive s := by
  induction hlength : s.length using Nat.strongRecOn generalizing s with
  | ind n ih =>
    subst hlength
    cases s with
    | nil => exact nil
    | cons c s =>
      cases hm : r.read (c :: s) with
      | some m => exact found hm (ih _ (r.rest_length_lt hm) m.rest rfl)
      | none =>
        cases hm' : r'.read (c :: s) with
        | some m => exact found' hm' (ih _ (r'.rest_length_lt hm') m.rest rfl)
        | none => exact plain hm hm' (ih _ (Nat.lt_succ_self s.length) s rfl)

/-! ## The folds -/

@[simp] theorem values_nil : r.values [] = [] := by
  simp [values]

@[simp] theorem count_nil : r.count [] = 0 := by
  simp [count]

@[simp] theorem replace_nil (f : α → List Char) : r.replace f [] = [] := by
  simp [replace]

variable {r}

theorem values_of_read {s : List Char} {m : Match α} (h : r.read s = some m) :
    r.values s = m.value :: r.values m.rest := by
  simp [values, r.pieces_of_read h, Piece.value?]

theorem values_cons {c : Char} {s : List Char} (h : r.read (c :: s) = none) :
    r.values (c :: s) = r.values s := by
  simp only [values, r.pieces_cons h, List.filterMap_cons, Piece.value?]

theorem count_of_read {s : List Char} {m : Match α} (h : r.read s = some m) :
    r.count s = r.count m.rest + 1 := by
  simp [count, values_of_read h]

theorem count_cons {c : Char} {s : List Char} (h : r.read (c :: s) = none) :
    r.count (c :: s) = r.count s := by
  simp [count, values_cons h]

theorem replace_of_read {f : α → List Char} {s : List Char} {m : Match α}
    (h : r.read s = some m) : r.replace f s = f m.value ++ r.replace f m.rest := by
  simp [replace, r.pieces_of_read h, Piece.render]

theorem replace_cons {f : α → List Char} {c : Char} {s : List Char}
    (h : r.read (c :: s) = none) : r.replace f (c :: s) = c :: r.replace f s := by
  simp [replace, r.pieces_cons h, Piece.render]

/-! ## The places of the matches -/

/-- A piece that is a match was read where it stands, and the pieces behind it are those of the text
behind it. -/
theorem read_of_pieces_eq {s text : List Char} {value : α} {earlier later : List (Piece α)}
    (h : r.pieces s = earlier ++ .found text value :: later) :
    ∃ rest, s = earlier.flatMap Piece.text ++ (text ++ rest) ∧
      r.read (text ++ rest) = some ⟨text, value, rest⟩ ∧ r.pieces rest = later := by
  induction s using r.scan_induction generalizing earlier with
  | nil =>
    rw [pieces_nil] at h
    exact absurd h.symm (List.append_ne_nil_of_right_ne_nil _ (List.cons_ne_nil _ _))
  | @found s m hm ih =>
    rw [r.pieces_of_read hm] at h
    cases earlier with
    | nil =>
      cases h
      exact ⟨m.rest, (r.splits hm).symm, (r.splits hm).symm ▸ hm, rfl⟩
    | cons piece earlier =>
      rw [List.cons_append, List.cons.injEq] at h
      obtain ⟨rfl, h⟩ := h
      obtain ⟨rest, hrest, hread, hlater⟩ := ih h
      refine ⟨rest, ?_, hread, hlater⟩
      rw [← r.splits hm, hrest, List.flatMap_cons, Piece.text, List.append_assoc]
  | @plain c s hn ih =>
    rw [r.pieces_cons hn] at h
    cases earlier with
    | nil => cases h
    | cons piece earlier =>
      rw [List.cons_append, List.cons.injEq] at h
      obtain ⟨rfl, h⟩ := h
      obtain ⟨rest, hrest, hread, hlater⟩ := ih h
      exact ⟨rest, by rw [hrest, List.flatMap_cons]; rfl, hread, hlater⟩

theorem mem_values_of_mem_pieces {s text : List Char} {value : α}
    (h : .found text value ∈ r.pieces s) : value ∈ r.values s :=
  List.mem_filterMap.mpr ⟨_, h, rfl⟩

/-! ## Nothing found -/

variable (r)

/-- A scan that counts nothing replaces nothing. -/
theorem replace_eq_self_of_count_eq_zero (f : α → List Char) {s : List Char}
    (h : r.count s = 0) : r.replace f s = s := by
  induction s using r.scan_induction with
  | nil => exact r.replace_nil f
  | found hm _ =>
    rw [count_of_read hm] at h
    exact absurd h (Nat.succ_ne_zero _)
  | plain hn ih =>
    rw [count_cons hn] at h
    rw [replace_cons hn, ih h]

/-- A scan counts nothing exactly when no match begins anywhere: the scan does not look behind the
head of a match, but if it meets no match it looks everywhere. -/
theorem count_eq_zero_iff (s : List Char) :
    r.count s = 0 ↔ ∀ t, t <:+ s → r.read t = none := by
  induction s using r.scan_induction with
  | nil => simp [r.read_nil]
  | @found s m hm _ =>
    rw [count_of_read hm]
    constructor
    · intro h
      exact absurd h (Nat.succ_ne_zero _)
    · intro h
      rw [h s (List.suffix_refl s)] at hm
      cases hm
  | @plain c s hn ih =>
    rw [count_cons hn, ih]
    constructor
    · intro h t ht
      rcases List.suffix_cons_iff.mp ht with rfl | ht
      · exact hn
      · exact h t ht
    · intro h t ht
      exact h t (ht.trans (List.suffix_cons c s))

/-! ## Weights -/

/-- **What a replacement takes off a text.** A weight adds up along a text, with a state that is
carried from left to right. If each replacement weighs `k` less than the match in whose place it is
put, a text loses `k` for each match. -/
theorem weight_replace_le {σ : Type} (weight : σ → List Char → Nat) (next : σ → List Char → σ)
    (append : ∀ q s t, weight q (s ++ t) = weight q s + weight (next q s) t)
    {f : α → List Char} {k : Nat}
    (loses : ∀ {s : List Char} {m : Match α}, r.read s = some m →
      ∀ q t, weight q (f m.value ++ t) + k ≤ weight q (m.text ++ t))
    (q : σ) (s : List Char) :
    weight q (r.replace f s) + k * r.count s ≤ weight q s := by
  induction s using r.scan_induction generalizing q with
  | nil => simp
  | @found s m hm ih =>
    have here := loses hm q (r.replace f m.rest)
    have later := ih (next q m.text)
    have split := append q m.text (r.replace f m.rest)
    have whole := append q m.text m.rest
    rw [replace_of_read hm, count_of_read hm, Nat.mul_succ, ← r.splits hm]
    omega
  | @plain c s hn ih =>
    have later := ih (next q [c])
    have split := append q [c] (r.replace f s)
    have whole := append q [c] s
    rw [replace_cons hn, count_cons hn]
    simp only [List.cons_append, List.nil_append] at split whole
    omega

end Recogniser

end WidgetMigration.Text
