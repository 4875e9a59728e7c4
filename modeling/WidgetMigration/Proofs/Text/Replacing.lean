import Mathlib.Data.List.Infix
import WidgetMigration.Proofs.Text.Scanning

/-!
# Texts after a replacement

What stands in a text after a replacement, told by what stood there before. If no replacement can
begin within a word and the word cannot begin within a replacement (`Recogniser.Spares`), the word
stands only where it stood: what is around it is the replacement of what was around it, and the scan
found no match at its head (`exists_of_replace_eq`).

For a replacement by fixed words this is a fact about two words, `Avoids`, which can be decided.
-/

namespace WidgetMigration.Text

/-! ## Overlaps -/

/-- No text that begins with `u` can begin within `v`: what is left of `v` there differs from `u`
before either ends. -/
def Avoids (v u : List Char) : Prop :=
  ∀ w ∈ v.tails, w ≠ [] → ¬ w <+: u ∧ ¬ u <+: w

namespace Avoids

variable {v u : List Char}

instance : Decidable (Avoids v u) :=
  inferInstanceAs (Decidable (∀ w ∈ v.tails, w ≠ [] → ¬ w <+: u ∧ ¬ u <+: w))

theorem append_ne_append (h : Avoids v u) {w : List Char} (hw : w <:+ v) (hne : w ≠ [])
    (x y : List Char) : w ++ x ≠ u ++ y := by
  intro heq
  obtain ⟨hleft, hright⟩ := h w ((List.mem_tails w v).mpr hw) hne
  rcases List.prefix_or_prefix_of_prefix ⟨x, heq⟩ (List.prefix_append u y) with hwu | huw
  · exact hleft hwu
  · exact hright huw

theorem append_right (h : Avoids v u) (x : List Char) : Avoids v (u ++ x) := by
  intro w hw hne
  have hsuffix := (List.mem_tails w v).mp hw
  constructor
  · rintro ⟨y, heq⟩
    exact h.append_ne_append hsuffix hne y x heq
  · rintro ⟨y, heq⟩
    rw [List.append_assoc] at heq
    exact h.append_ne_append hsuffix hne [] (x ++ y) (by rw [List.append_nil, heq])

theorem of_suffix (h : Avoids v u) {w : List Char} (hw : w <:+ v) : Avoids w u :=
  fun x hx => h x ((List.mem_tails x v).mpr (((List.mem_tails x w).mp hx).trans hw))

theorem nil : Avoids [] u :=
  fun _ hw hne => absurd (List.mem_singleton.mp hw) hne

theorem of_not_mem {c : Char} (hc : c ∉ v) : Avoids v (c :: u) := by
  intro w hw hne
  have hsuffix := (List.mem_tails w v).mp hw
  cases w with
  | nil => exact absurd rfl hne
  | cons d w =>
    have hd : d ≠ c := fun heq => hc (hsuffix.subset (heq ▸ List.mem_cons_self))
    constructor
    · intro hprefix
      exact hd (List.cons_prefix_cons.mp hprefix).1
    · intro hprefix
      exact hd (List.cons_prefix_cons.mp hprefix).1.symm

theorem append {a : List Char} (ha : Avoids a u) (hv : Avoids v u) : Avoids (a ++ v) u := by
  intro w hw hne
  obtain ⟨before, heq⟩ := (List.mem_tails w (a ++ v)).mp hw
  rcases List.append_eq_append_iff.mp heq with ⟨overlap, rfl, rfl⟩ | ⟨overlap, rfl, rfl⟩
  · by_cases hnil : overlap = []
    · rw [hnil] at hne ⊢
      exact hv v ((List.mem_tails v v).mpr (List.suffix_refl v)) hne
    have hoverlap : overlap <:+ before ++ overlap := List.suffix_append before overlap
    constructor
    · rintro ⟨x, heq'⟩
      rw [List.append_assoc] at heq'
      exact ha.append_ne_append hoverlap hnil (v ++ x) [] (by rw [heq', List.append_nil])
    · rintro ⟨x, heq'⟩
      exact ha.append_ne_append hoverlap hnil v x heq'.symm
  · exact hv w ((List.mem_tails w _).mpr (List.suffix_append overlap w)) hne

theorem not_isInfix (h : Avoids v u) (hu : u ≠ []) : ¬ u <:+: v := by
  rintro ⟨before, rest, rfl⟩
  have hsuffix : u ++ rest <:+ before ++ u ++ rest := ⟨before, (List.append_assoc _ _ _).symm⟩
  exact h.append_ne_append hsuffix (List.append_ne_nil_of_left_ne_nil hu rest) [] rest
    (List.append_nil _)

/-- If `v` does not begin within `u`, it begins behind `u`. -/
theorem exists_of_append_eq (h : Avoids u v) {x before rest : List Char}
    (heq : u ++ x = before ++ (v ++ rest)) :
    ∃ later, before = u ++ later ∧ x = later ++ (v ++ rest) := by
  rcases List.append_eq_append_iff.mp heq with ⟨later, hlater, hx⟩ | ⟨overlap, hu, hx⟩
  · exact ⟨later, hlater, hx⟩
  · cases overlap with
    | nil => exact ⟨[], by simp [hu], hx.symm⟩
    | cons c overlap =>
      have hoverlap : c :: overlap <:+ u := ⟨before, hu.symm⟩
      exact absurd hx.symm (h.append_ne_append hoverlap (List.cons_ne_nil c overlap) x rest)

end Avoids

namespace Recogniser

variable {α : Type}

/-- A match depends on its own characters only, not on the text behind it. -/
def Local (r : Recogniser α) : Prop :=
  ∀ {s : List Char} {m : Match α}, r.read s = some m →
    ∀ rest, r.read (m.text ++ rest) = some ⟨m.text, m.value, rest⟩

/-- A replacement in `s` leaves every `v` as it is and makes none: no replacement begins within `v`,
and `v` does not begin within what is put in. -/
structure Spares (r : Recogniser α) (f : α → List Char) (s v : List Char) : Prop where
  within : ∀ {t : List Char} {m : Match α}, t <:+ s → r.read t = some m →
    ∀ w, w <:+ v.tail → w ≠ [] → ¬ w <+: r.replace f t
  outside : ∀ {t : List Char} {m : Match α}, t <:+ s → r.read t = some m → Avoids (f m.value) v

variable {r : Recogniser α} {f : α → List Char} {s v before rest : List Char}

theorem Local.read_eq_none (h : r.Local) (hnone : r.read (s ++ rest) = none) : r.read s = none := by
  cases hm : r.read s with
  | none => rfl
  | some m =>
    have hread := h hm (m.rest ++ rest)
    rw [← List.append_assoc, r.splits hm, hnone] at hread
    cases hread

theorem Spares.of_suffix {t : List Char} (h : r.Spares f s v) (ht : t <:+ s) : r.Spares f t v where
  within hsuffix := h.within (hsuffix.trans ht)
  outside hsuffix := h.outside (hsuffix.trans ht)

/-- What is put in for a match is all that counts if it overlaps with nothing. -/
theorem spares_of_avoids (hwithin : ∀ a, Avoids v.tail (f a)) (houtside : ∀ a, Avoids (f a) v) :
    r.Spares f s v where
  within := by
    intro t m _ hm w hw hne hprefix
    obtain ⟨x, heq⟩ := hprefix
    rw [replace_of_read hm] at heq
    exact (hwithin m.value).append_ne_append hw hne _ _ heq
  outside _ _ := houtside _

/-! ## Texts that are spared -/

/-- If no replacement begins within `v`, a text that begins with `v` afterwards did so before. -/
theorem exists_of_replace_eq_append
    (h : ∀ {t m}, t <:+ s → r.read t = some m → ∀ w, w <:+ v → w ≠ [] → ¬ w <+: r.replace f t)
    (heq : r.replace f s = v ++ rest) : ∃ rest', s = v ++ rest' ∧ r.replace f rest' = rest := by
  induction v generalizing s with
  | nil => exact ⟨s, rfl, heq⟩
  | cons c v ih =>
    cases s with
    | nil =>
      rw [replace_nil] at heq
      cases heq
    | cons d s =>
      cases hm : r.read (d :: s) with
      | some m =>
        have hprefix : c :: v <+: r.replace f (d :: s) := ⟨rest, heq.symm⟩
        exact absurd hprefix
          (h (List.suffix_refl _) hm _ (List.suffix_refl _) (List.cons_ne_nil c v))
      | none =>
        rw [replace_cons hm, List.cons_append, List.cons.injEq] at heq
        obtain ⟨rfl, heq⟩ := heq
        have hlater : ∀ {t m}, t <:+ s → r.read t = some m →
            ∀ w, w <:+ v → w ≠ [] → ¬ w <+: r.replace f t := fun ht hread w hw =>
          h (ht.trans (List.suffix_cons d s)) hread w (hw.trans (List.suffix_cons d v))
        obtain ⟨rest', rfl, hrest⟩ := ih hlater heq
        exact ⟨rest', rfl, hrest⟩

/-- What a text begins with afterwards it began with before, if it avoids all that is put in. -/
theorem isPrefix_of_isPrefix_replace (h : ∀ a, Avoids v (f a)) (hv : v <+: r.replace f s) :
    v <+: s := by
  obtain ⟨rest, heq⟩ := hv
  have hbegins : ∀ {t m}, t <:+ s → r.read t = some m →
      ∀ w, w <:+ v → w ≠ [] → ¬ w <+: r.replace f t := by
    rintro t m _ hm w hw hne ⟨x, hx⟩
    rw [replace_of_read hm] at hx
    exact (h m.value).append_ne_append hw hne x _ hx
  obtain ⟨rest', heq', _⟩ := exists_of_replace_eq_append hbegins heq.symm
  exact ⟨rest', heq'.symm⟩

/-- **A word that is spared stands only where it stood.** -/
theorem exists_of_replace_eq (hlocal : r.Local) (hv : v ≠ []) (h : r.Spares f s v)
    (heq : r.replace f s = before ++ (v ++ rest)) :
    ∃ before' rest', s = before' ++ (v ++ rest') ∧ r.replace f before' = before ∧
      r.replace f rest' = rest ∧ r.read (v ++ rest') = none := by
  induction s using r.scan_induction generalizing before with
  | nil =>
    rw [replace_nil] at heq
    obtain ⟨_, hnil⟩ := List.append_eq_nil_iff.mp heq.symm
    exact absurd (List.append_eq_nil_iff.mp hnil).1 hv
  | @found s m hm ih =>
    have hs := r.splits hm
    have hsuffix : m.rest <:+ s := ⟨m.text, hs⟩
    rw [replace_of_read hm] at heq
    obtain ⟨later, rfl, hlater⟩ := (h.outside (List.suffix_refl s) hm).exists_of_append_eq heq
    obtain ⟨before', rest', hrest, hreplaced, hafter, hnone⟩ := ih (h.of_suffix hsuffix) hlater
    refine ⟨m.text ++ before', rest', ?_, ?_, hafter, hnone⟩
    · rw [← hs, hrest, List.append_assoc]
    · rw [replace_of_read (hlocal hm before'), hreplaced]
  | @plain c s hn ih =>
    rw [replace_cons hn] at heq
    cases before with
    | nil =>
      cases v with
      | nil => exact absurd rfl hv
      | cons d v =>
        rw [List.nil_append, List.cons_append, List.cons.injEq] at heq
        obtain ⟨rfl, heq⟩ := heq
        obtain ⟨rest', rfl, hrest⟩ := exists_of_replace_eq_append
          (fun ht hread => h.within (ht.trans (List.suffix_cons c s)) hread) heq
        exact ⟨[], rest', rfl, r.replace_nil f, hrest, hn⟩
    | cons d before =>
      rw [List.cons_append, List.cons.injEq] at heq
      obtain ⟨rfl, heq⟩ := heq
      obtain ⟨before', rest', rfl, hreplaced, hafter, hnone⟩ :=
        ih (h.of_suffix (List.suffix_cons c _)) heq
      have hread : r.read (c :: before') = none := hlocal.read_eq_none hn
      exact ⟨c :: before', rest', rfl, by rw [replace_cons hread, hreplaced], hafter, hnone⟩

/-- A word that is spared stands somewhere afterwards only if it did before, where no match was
found. -/
theorem Spares.exists_of_isInfix (h : r.Spares f s v) (hlocal : r.Local) (hv : v ≠ [])
    (hin : v <:+: r.replace f s) : ∃ rest, v ++ rest <:+ s ∧ r.read (v ++ rest) = none := by
  obtain ⟨before, rest, heq⟩ := hin
  rw [List.append_assoc] at heq
  obtain ⟨before', rest', hs, _, _, hnone⟩ := exists_of_replace_eq hlocal hv h heq.symm
  exact ⟨rest', ⟨before', hs.symm⟩, hnone⟩

/-! ## Texts in which no match begins -/

/-- No match begins within `v`, whatever stands behind it. -/
def PassesOver (r : Recogniser α) (v : List Char) : Prop :=
  ∀ w, w <:+ v → w ≠ [] → ∀ x, r.read (w ++ x) = none

theorem PassesOver.tail {c : Char} (h : r.PassesOver (c :: v)) : r.PassesOver v :=
  fun w hw => h w (hw.trans (List.suffix_cons c v))

theorem PassesOver.read_cons {c : Char} (h : r.PassesOver (c :: v)) (x : List Char) :
    r.read (c :: (v ++ x)) = none :=
  h (c :: v) (List.suffix_refl _) (List.cons_ne_nil c v) x

/-- Each character of a text in which no match begins is a piece of its own. -/
theorem PassesOver.pieces_append (h : r.PassesOver v) (x : List Char) :
    r.pieces (v ++ x) = v.map .plain ++ r.pieces x := by
  induction v with
  | nil => rfl
  | cons c v ih =>
    rw [List.cons_append, r.pieces_cons (h.read_cons x), ih h.tail, List.map_cons, List.cons_append]

/-- A scan leaves a text in which no match begins, and goes on behind it. -/
theorem PassesOver.replace_append (h : r.PassesOver v) (x : List Char) :
    r.replace f (v ++ x) = v ++ r.replace f x := by
  have hplain : (v.map Piece.plain).flatMap (Piece.render f) = v := by
    rw [List.flatMap_map]
    exact List.flatMap_singleton' v
  rw [replace, h.pieces_append, List.flatMap_append, hplain, replace]

theorem PassesOver.count_append (h : r.PassesOver v) (x : List Char) : r.count (v ++ x) = r.count x := by
  have hplain : (v.map (Piece.plain (α := α))).filterMap Piece.value? = [] := by
    simp [Piece.value?]
  rw [count, values, h.pieces_append, List.filterMap_append, hplain, List.nil_append, count, values]

/-- **A scan counts the places where a match begins**, all of them, if none begins within another. -/
theorem count_eq_countP_tails (h : ∀ {t m}, r.read t = some m → r.PassesOver m.text.tail)
    (s : List Char) : r.count s = s.tails.countP fun t => (r.read t).isSome := by
  have hpassed : ∀ {v : List Char}, r.PassesOver v → ∀ x,
      (v ++ x).tails.countP (fun t => (r.read t).isSome) =
        x.tails.countP fun t => (r.read t).isSome := by
    intro v
    induction v with
    | nil => exact fun _ _ => rfl
    | cons c v ih =>
      intro hv x
      rw [List.cons_append, List.tails_cons, List.countP_cons_of_neg (by simp [hv.read_cons x]),
        ih hv.tail]
  induction s using r.scan_induction with
  | nil => simp [r.read_nil]
  | @found s m hm ih =>
    obtain ⟨c, v, htext⟩ := List.exists_cons_of_ne_nil (r.nonempty hm)
    have hsplit := r.splits hm
    have hrest := hpassed (h hm) m.rest
    rw [htext, List.tail_cons] at hrest
    rw [htext, List.cons_append] at hsplit
    rw [count_of_read hm, ih, ← hrest]
    rw [← hsplit] at hm ⊢
    rw [List.tails_cons, List.countP_cons_of_pos (by simp [hm])]
  | @plain c s hn ih =>
    rw [count_cons hn, ih, List.tails_cons, List.countP_cons_of_neg (by simp [hn])]

/-- Something is left of a text if nothing is replaced by nothing. -/
theorem replace_ne_nil (h : ∀ a, f a ≠ []) (hs : s ≠ []) : r.replace f s ≠ [] := by
  cases s with
  | nil => exact absurd rfl hs
  | cons c s =>
    cases hm : r.read (c :: s) with
    | some m =>
      rw [replace_of_read hm]
      exact List.append_ne_nil_of_left_ne_nil (h m.value) _
    | none =>
      rw [replace_cons hm]
      exact List.cons_ne_nil c _

/-! ## Single characters -/

variable {c : Char}

/-- A character that is never put in stood there before. -/
theorem mem_of_mem_replace (h : ∀ a, c ∉ f a) (hc : c ∈ r.replace f s) : c ∈ s := by
  induction s using r.scan_induction with
  | nil =>
    rw [replace_nil] at hc
    exact hc
  | @found s m hm ih =>
    rw [replace_of_read hm] at hc
    rw [← r.splits hm]
    rcases List.mem_append.mp hc with hput | hrest
    · exact absurd hput (h m.value)
    · exact List.mem_append_right _ (ih hrest)
  | @plain d s hn ih =>
    rw [replace_cons hn] at hc
    rcases List.mem_cons.mp hc with rfl | hrest
    · exact List.mem_cons_self
    · exact List.mem_cons_of_mem d (ih hrest)

/-- A character that stands in no match is not lost. -/
theorem mem_replace (h : ∀ {t m}, t <:+ s → r.read t = some m → c ∉ m.text) (hc : c ∈ s) :
    c ∈ r.replace f s := by
  induction s using r.scan_induction with
  | nil => exact absurd hc List.not_mem_nil
  | @found s m hm ih =>
    have hsuffix : m.rest <:+ s := ⟨m.text, r.splits hm⟩
    rw [← r.splits hm] at hc
    rw [replace_of_read hm]
    rcases List.mem_append.mp hc with htext | hrest
    · exact absurd htext (h (List.suffix_refl s) hm)
    · exact List.mem_append_right _ (ih (fun ht => h (ht.trans hsuffix)) hrest)
  | @plain d s hn ih =>
    rw [replace_cons hn]
    rcases List.mem_cons.mp hc with rfl | hrest
    · exact List.mem_cons_self
    · exact List.mem_cons_of_mem d (ih (fun ht => h (ht.trans (List.suffix_cons d s))) hrest)

/-- A character that stands in no match is a piece of its own, and what stands around it is cut
separately. -/
theorem pieces_append_cons (hlocal : r.Local) (h : ∀ {t m}, r.read t = some m → c ∉ m.text)
    (before rest : List Char) :
    r.pieces (before ++ c :: rest) = r.pieces before ++ .plain c :: r.pieces rest := by
  induction hs : before ++ c :: rest using r.scan_induction generalizing before with
  | nil => exact absurd hs (by simp)
  | @found s m hm ih =>
    have havoids : Avoids m.text [c] := Avoids.of_not_mem (h hm)
    rw [← r.splits hm] at hs
    obtain ⟨later, rfl, hrest⟩ := havoids.exists_of_append_eq hs.symm
    rw [r.pieces_of_read hm, ih later hrest.symm, r.pieces_of_read (hlocal hm later),
      List.cons_append]
  | @plain d s hn ih =>
    rw [r.pieces_cons hn]
    cases before with
    | nil =>
      cases hs
      rw [r.pieces_nil]
      rfl
    | cons e before =>
      rw [List.cons_append, List.cons.injEq] at hs
      obtain ⟨rfl, hs⟩ := hs
      have hread : r.read (e :: before) = none := hlocal.read_eq_none (by rwa [← hs] at hn)
      rw [ih before hs, r.pieces_cons hread]
      rfl

/-- What stands around such a character is replaced separately. -/
theorem replace_append_cons (hlocal : r.Local) (h : ∀ {t m}, r.read t = some m → c ∉ m.text)
    (before rest : List Char) :
    r.replace f (before ++ c :: rest) = r.replace f before ++ c :: r.replace f rest := by
  rw [replace, pieces_append_cons hlocal h, List.flatMap_append, List.flatMap_cons]
  rfl

theorem count_append_cons (hlocal : r.Local) (h : ∀ {t m}, r.read t = some m → c ∉ m.text)
    (before rest : List Char) : r.count (before ++ c :: rest) = r.count before + r.count rest := by
  rw [count, values, pieces_append_cons hlocal h, List.filterMap_append, List.length_append]
  rfl

end Recogniser

end WidgetMigration.Text
