import Mathlib
import WidgetMigration.Proofs.Rule.Matches
import WidgetMigration.Rule.Edit

/-!
# Renaming

Names with an old and a new spelling can be renamed in two ways: one after the other, each pass going
over the text that the passes before it left (`Renaming.passes`), or all at once, in a single scan for
any of the old spellings (`Renaming.atOnce`).

If no spelling overlaps with another (`Renaming.Separate`), the two are the same edit
(`Renaming.Separate.passes_eq_atOnce`), so the order of the passes does not matter. Every place where
an old spelling stands in the text is counted, once (`Renaming.Separate.count_atOnce`), and none of
them is left (`Renaming.Separate.not_isInfix_atOnce`). As many occurrences of the new spelling come
in as places are counted (`Renaming.Separate.occurrences_new_pass`).
-/

namespace WidgetMigration

open WidgetMigration.Text WidgetMigration.Pattern

/-- Names with an old and a new spelling. -/
structure Renaming (ι : Type) where
  old : ι → List Char
  new : ι → List Char
  old_ne_nil : ∀ i, old i ≠ []

namespace Text

/-- The number of places at which a word stands in a text. -/
def occurrences (w s : List Char) : Nat :=
  s.tails.countP fun t => w <+: t

theorem countP_or_of_disjoint {β : Type} {p q : β → Bool} (h : ∀ b, p b = true → q b = false)
    (l : List β) : l.countP (fun b => p b || q b) = l.countP p + l.countP q := by
  induction l with
  | nil => rfl
  | cons b l ih =>
    rw [List.countP_cons, List.countP_cons, List.countP_cons, ih]
    cases hp : p b with
    | true => rw [h b hp, Bool.or_false, if_pos rfl, if_neg Bool.false_ne_true]; omega
    | false => rw [Bool.false_or, if_neg Bool.false_ne_true]; omega

theorem occurrences_cons (w : List Char) (c : Char) (s : List Char) :
    occurrences w (c :: s) = occurrences w s + if w <+: c :: s then 1 else 0 := by
  simp only [occurrences, List.tails_cons, List.countP_cons, decide_eq_true_eq]

section Occurrences

variable {v w : List Char}

/-- No occurrence begins within a text that avoids the word. -/
theorem Avoids.occurrences_append (h : Avoids v w) (x : List Char) :
    occurrences w (v ++ x) = occurrences w x := by
  induction v with
  | nil => rfl
  | cons c v ih =>
    have hnot : ¬ w <+: c :: (v ++ x) := by
      rintro ⟨rest, heq⟩
      exact h.append_ne_append (List.suffix_refl _) (List.cons_ne_nil c v) x rest heq.symm
    rw [List.cons_append, occurrences_cons, if_neg hnot, Nat.add_zero,
      ih (h.of_suffix (List.suffix_cons c v))]

/-- A word that does not overlap with itself is one more occurrence in front of a text. -/
theorem occurrences_self_append (hne : w ≠ []) (h : Avoids w.tail w) (x : List Char) :
    occurrences w (w ++ x) = occurrences w x + 1 := by
  obtain ⟨c, v, hw⟩ := List.exists_cons_of_ne_nil hne
  have hhead : w <+: c :: (v ++ x) := ⟨x, by rw [hw, List.cons_append]⟩
  have htail : Avoids v w := by rwa [hw, List.tail_cons, ← hw] at h
  calc occurrences w (w ++ x) = occurrences w (c :: (v ++ x)) := by rw [← List.cons_append, ← hw]
    _ = occurrences w (v ++ x) + 1 := by rw [occurrences_cons, if_pos hhead]
    _ = occurrences w x + 1 := by rw [htail.occurrences_append]

end Occurrences

end Text

namespace Edit

theorem andThen_assoc (e : Edit) (f g : List Char → Edit) :
    (e.andThen f).andThen g = e.andThen fun s => (f s).andThen g := by
  simp only [andThen, Nat.add_assoc]

theorem start_andThen (s : List Char) (f : List Char → Edit) :
    (Edit.mk s 0).andThen f = f s := by
  simp only [andThen, Nat.zero_add]

end Edit

namespace Renaming

variable {ι : Type} (N : Renaming ι)

/-- One name gets its new spelling. -/
def pass (i : ι) : List Char → Edit :=
  Edit.replacing (word (N.old i) (N.old_ne_nil i)) fun _ => N.new i

/-- Some names get their new spellings, one after the other. -/
def passes (names : List ι) (s : List Char) : Edit :=
  names.foldl (fun e i => e.andThen (N.pass i)) ⟨s, 0⟩

/-- Reads the old spelling of one of some names. -/
def readOld : List ι → List Char → Option (Match ι)
  | [], _ => none
  | i :: names, s =>
    match afterWord (N.old i) s with
    | some rest => some ⟨N.old i, i, rest⟩
    | none => readOld names s

/-- How the old spelling of one of some names is written. -/
def OldForm (names : List ι) (text : List Char) (i : ι) : Prop :=
  i ∈ names ∧ text = N.old i

variable {N}

theorem readOld_eq_some {names : List ι} {s : List Char} {m : Match ι}
    (h : N.readOld names s = some m) : N.OldForm names m.text m.value ∧ s = m.text ++ m.rest := by
  induction names with
  | nil => cases h
  | cons i names ih =>
    rw [readOld] at h
    split at h
    · rename_i rest hrest
      cases h
      exact ⟨⟨List.mem_cons_self, rfl⟩, afterWord_eq_some_iff.mp hrest⟩
    · obtain ⟨⟨hmem, htext⟩, heq⟩ := ih h
      exact ⟨⟨List.mem_cons_of_mem i hmem, htext⟩, heq⟩

theorem isSome_readOld_cons (i : ι) (names : List ι) (s : List Char) :
    (N.readOld (i :: names) s).isSome = (decide (N.old i <+: s) || (N.readOld names s).isSome) := by
  rw [readOld]
  cases hafter : afterWord (N.old i) s with
  | some rest =>
    have hprefix : N.old i <+: s := ⟨rest, (afterWord_eq_some_iff.mp hafter).symm⟩
    rw [decide_eq_true hprefix, Bool.true_or]
    rfl
  | none =>
    have hnot : ¬ N.old i <+: s := by
      rintro ⟨rest, rfl⟩
      rw [afterWord_append] at hafter
      cases hafter
    rw [decide_eq_false hnot, Bool.false_or]

variable (N)

/-- Recognises the old spelling of any of some names. -/
def anyOld (names : List ι) : Recogniser ι where
  read := N.readOld names
  splits h := (readOld_eq_some h).2.symm
  nonempty h := (readOld_eq_some h).1.2 ▸ N.old_ne_nil _

/-- Some names get their new spellings, all at once. -/
def atOnce (names : List ι) : List Char → Edit :=
  Edit.replacing (N.anyOld names) N.new

/-- No spelling can overlap with an old one: an old spelling begins neither within itself nor within
another, nor within a new one, and no new one begins within it. -/
structure Separate : Prop where
  alone : ∀ i, Avoids (N.old i).tail (N.old i)
  apart : ∀ i j, i ≠ j → Avoids (N.old i) (N.old j)
  fresh : ∀ i j, Avoids (N.new i) (N.old j) ∧ Avoids (N.old j) (N.new i)

variable {N}

theorem passes_cons (i : ι) (names : List ι) (s : List Char) :
    N.passes (i :: names) s = (N.pass i s).andThen (N.passes names) := by
  have hfold : ∀ (names : List ι) (e : Edit),
      names.foldl (fun e i => e.andThen (N.pass i)) e = e.andThen (N.passes names) := by
    intro names
    induction names with
    | nil => exact fun e => rfl
    | cons i names ih =>
      intro e
      have hnames : N.passes (i :: names) = fun s => (N.pass i s).andThen (N.passes names) := by
        funext s
        rw [passes, List.foldl_cons, ih, Edit.start_andThen]
      rw [List.foldl_cons, ih, Edit.andThen_assoc, hnames]
  rw [passes, List.foldl_cons, hfold, Edit.start_andThen]

namespace Separate

variable {names : List ι} {s : List Char}

/-- Whatever the order of the names, at most one old spelling stands at a place. -/
theorem finds (h : N.Separate) : (N.anyOld names).Finds (N.OldForm names) := by
  intro s m
  refine ⟨readOld_eq_some, ?_⟩
  obtain ⟨text, i, rest⟩ := m
  rintro ⟨⟨hmem, htext⟩, rfl⟩
  change text = N.old i at htext
  subst htext
  show N.readOld names (N.old i ++ rest) = _
  induction names with
  | nil => exact absurd hmem List.not_mem_nil
  | cons j names ih =>
    by_cases hij : i = j
    · rw [readOld, hij, afterWord_append]
    · have hnone : afterWord (N.old j) (N.old i ++ rest) = none := by
        cases hafter : afterWord (N.old j) (N.old i ++ rest) with
        | none => rfl
        | some x =>
          exact absurd (afterWord_eq_some_iff.mp hafter)
            ((h.apart i j hij).append_ne_append (List.suffix_refl _) (N.old_ne_nil i) rest x)
      rw [readOld, hnone]
      exact ih ((List.mem_cons.mp hmem).resolve_left hij)

/-- Nothing is found within a text that avoids the old spellings. -/
theorem passesOver (h : N.Separate) {v : List Char} (hv : ∀ i ∈ names, Avoids v (N.old i)) :
    (N.anyOld names).PassesOver v :=
  h.finds.passesOver fun _ i hform => hform.2 ▸ hv i hform.1

/-! ### One pass before the others -/

section Pass

variable {i : ι} {c : Char}

theorem finds_pass (i : ι) :
    (word (N.old i) (N.old_ne_nil i)).Finds fun text _ => text = N.old i :=
  finds_word _

/-- A pass leaves the old spellings of other names. -/
theorem pass_passesOver (h : N.Separate) {j : ι} (hj : j ≠ i) :
    (word (N.old i) (N.old_ne_nil i)).PassesOver (N.old j) :=
  (finds_pass i).passesOver fun _ _ htext => htext ▸ h.apart j i hj

/-- Where no old spelling begins, none begins after a pass: what a text begins with then is no new
spelling. -/
theorem read_pass_eq_none (h : N.Separate) (hn : (N.anyOld (i :: names)).read (c :: s) = none) :
    (word (N.old i) (N.old_ne_nil i)).read (c :: s) = none ∧
      (N.anyOld names).read (c :: (N.pass i s).text) = none := by
  have hnone := h.finds.read_eq_none_iff.mp hn
  have hread : (word (N.old i) (N.old_ne_nil i)).read (c :: s) = none :=
    (finds_pass i).read_eq_none_iff.mpr fun w _ hw => hnone w i ⟨List.mem_cons_self, hw⟩
  have hothers : (N.anyOld names).read (c :: s) = none :=
    h.finds.read_eq_none_iff.mpr fun w j hw => hnone w j ⟨List.mem_cons_of_mem i hw.1, hw.2⟩
  exact ⟨hread, h.finds.read_cons_replace_eq_none (fun _ j hw _ => hw.2 ▸ (h.fresh i j).2) hothers
    hread⟩

end Pass

/-- **One pass, and the others at once, are all at once.** -/
theorem atOnce_cons (h : N.Separate) {i : ι} (hi : i ∉ names) (s : List Char) :
    N.atOnce (i :: names) s = (N.pass i s).andThen (N.atOnce names) := by
  let pass := word (N.old i) (N.old_ne_nil i)
  let all := N.anyOld (i :: names)
  let others := N.anyOld names
  have hboth : all.replace N.new s = others.replace N.new (pass.replace (fun _ => N.new i) s) ∧
      all.count s = pass.count s + others.count (pass.replace (fun _ => N.new i) s) := by
    induction s using all.scan_induction with
    | nil => simp
    | @found s m hm ih =>
      obtain ⟨⟨hmem, htext⟩, rfl⟩ := (h.finds _ _).mp hm
      rw [Recogniser.replace_of_read hm, Recogniser.count_of_read hm, htext]
      rcases List.mem_cons.mp hmem with hvalue | hmem
      · -- The pass finds it, and the others do not look into what it puts in.
        have hread := (finds_pass i).read_append (a := ()) (hvalue ▸ rfl : N.old m.value = N.old i)
          m.rest
        have hnew : others.PassesOver (N.new i) := h.passesOver fun j _ => (h.fresh i j).1
        rw [Recogniser.replace_of_read hread, Recogniser.count_of_read hread, hnew.replace_append,
          hnew.count_append, ih.1, ih.2, hvalue]
        exact ⟨rfl, Nat.add_right_comm _ _ 1⟩
      · -- The pass leaves it, and one of the others finds it.
        have hold := h.pass_passesOver (i := i) fun heq => hi (heq ▸ hmem)
        have hread := h.finds.read_append ⟨hmem, rfl⟩ (pass.replace (fun _ => N.new i) m.rest)
        rw [hold.replace_append, hold.count_append, Recogniser.replace_of_read hread,
          Recogniser.count_of_read hread, ih.1, ih.2]
        exact ⟨rfl, rfl⟩
    | @plain c s hn ih =>
      obtain ⟨hread, hread'⟩ := h.read_pass_eq_none hn
      change others.read (c :: pass.replace (fun _ => N.new i) s) = none at hread'
      rw [Recogniser.replace_cons hn, Recogniser.count_cons hn, Recogniser.replace_cons hread,
        Recogniser.count_cons hread, Recogniser.replace_cons hread', Recogniser.count_cons hread',
        ih.1, ih.2]
      exact ⟨rfl, rfl⟩
  exact congrArg₂ Edit.mk hboth.1 hboth.2

/-- **Renaming one after the other is renaming at once.** -/
theorem passes_eq_atOnce (h : N.Separate) (hn : names.Nodup) (s : List Char) :
    N.passes names s = N.atOnce names s := by
  induction names generalizing s with
  | nil =>
    have hnone : (N.anyOld []).count s = 0 :=
      h.finds.count_eq_zero_iff.mpr fun _ _ hform => absurd hform.1 List.not_mem_nil
    have hkept := (N.anyOld []).replace_eq_self_of_count_eq_zero N.new hnone
    exact congrArg₂ Edit.mk hkept.symm hnone.symm
  | cons i names ih =>
    obtain ⟨hi, hn⟩ := List.nodup_cons.mp hn
    rw [passes_cons, h.atOnce_cons hi]
    simp only [Edit.andThen, ih hn]

/-- **The order of the passes does not matter.** -/
theorem passes_perm (h : N.Separate) {names' : List ι} (hn : names.Nodup)
    (hperm : names.Perm names') (s : List Char) : N.passes names s = N.passes names' s := by
  have hform : N.OldForm names = N.OldForm names' := by
    funext text i
    exact propext (and_congr_left' hperm.mem_iff)
  have hsame : N.anyOld names = N.anyOld names' := h.finds.eq (hform ▸ h.finds)
  rw [h.passes_eq_atOnce hn, h.passes_eq_atOnce (hperm.nodup hn), atOnce, atOnce, hsame]

/-- Of some texts, as many begin with an old spelling as begin with the first, the second and so on
together: none begins with two of them. -/
theorem countP_readOld (h : N.Separate) (hn : names.Nodup) (texts : List (List Char)) :
    texts.countP (fun t => (N.readOld names t).isSome) =
      (names.map fun i => texts.countP fun t => N.old i <+: t).sum := by
  induction names with
  | nil => exact List.countP_eq_zero.mpr fun _ _ => by simp [readOld]
  | cons i names ih =>
    obtain ⟨hi, hn⟩ := List.nodup_cons.mp hn
    rw [List.map_cons, List.sum_cons, ← ih hn, ← countP_or_of_disjoint]
    · exact List.countP_congr fun t _ => by rw [isSome_readOld_cons]
    · intro t hprefix
      obtain ⟨rest, rfl⟩ := of_decide_eq_true hprefix
      rw [Option.isSome_eq_false_iff, Option.isNone_iff_eq_none]
      refine h.finds.read_eq_none_iff.mpr ?_
      rintro _ j ⟨hmem, rfl⟩ ⟨x, heq⟩
      exact (h.apart j i fun hji => hi (hji ▸ hmem)).append_ne_append (List.suffix_refl _)
        (N.old_ne_nil j) x rest heq

/-- **Each place where an old spelling stands is counted once.** -/
theorem count_atOnce (h : N.Separate) (hn : names.Nodup) (s : List Char) :
    (N.atOnce names s).count = (names.map fun i => occurrences (N.old i) s).sum := by
  refine Eq.trans (Recogniser.count_eq_countP_tails (fun {t m} hm => ?_) s)
    (h.countP_readOld hn s.tails)
  obtain ⟨⟨_, htext⟩, _⟩ := (h.finds t m).mp hm
  rw [htext]
  refine h.passesOver fun i _ => ?_
  by_cases hi : m.value = i
  · rw [hi]
    exact h.alone i
  · exact (h.apart m.value i hi).of_suffix (List.tail_suffix _)

/-- **No old spelling is left.** -/
theorem not_isInfix_atOnce (h : N.Separate) {i : ι} (hi : i ∈ names) (s : List Char) :
    ¬ N.old i <:+: (N.atOnce names s).text := by
  intro hin
  have hspares : (N.anyOld names).Spares N.new s (N.old i) :=
    Recogniser.spares_of_avoids (fun j => (h.fresh j i).2.of_suffix (List.tail_suffix _))
      fun j => (h.fresh j i).1
  obtain ⟨rest, _, hnone⟩ := hspares.exists_of_isInfix h.finds.isLocal (N.old_ne_nil i) hin
  exact h.finds.read_eq_none_iff.mp hnone _ i ⟨hi, rfl⟩ (List.prefix_append _ rest)

/-- Where a pass finds nothing, the new spelling stands afterwards exactly if it stood there before. -/
theorem isPrefix_pass_iff (h : N.Separate) {i : ι} {c : Char} {s : List Char}
    (halone : Avoids (N.new i).tail (N.new i))
    (hn : (word (N.old i) (N.old_ne_nil i)).read (c :: s) = none) :
    N.new i <+: c :: (N.pass i s).text ↔ N.new i <+: c :: s := by
  constructor
  · cases hnew : N.new i with
    | nil => exact fun _ => List.nil_prefix
    | cons d v =>
      intro hbegins
      obtain ⟨rfl, hv⟩ := List.cons_prefix_cons.mp hbegins
      rw [hnew, List.tail_cons, ← hnew] at halone
      exact List.cons_prefix_cons.mpr
        ⟨rfl, Recogniser.isPrefix_of_isPrefix_replace (fun _ => halone) hv⟩
  · rintro ⟨rest, heq⟩
    have hkept : (word (N.old i) (N.old_ne_nil i)).PassesOver (N.new i) :=
      (finds_pass i).passesOver fun _ _ htext => htext ▸ (h.fresh i i).1
    have hpassed : c :: (N.pass i s).text = (N.pass i (c :: s)).text :=
      (Recogniser.replace_cons hn).symm
    rw [hpassed, ← heq]
    exact ⟨_, (hkept.replace_append rest).symm⟩

/-- **A pass brings one occurrence of the new spelling for each place it counts**, and neither makes
nor breaks another one, if the new spelling does not overlap with itself. -/
theorem occurrences_new_pass (h : N.Separate) {i : ι} (hne : N.new i ≠ [])
    (halone : Avoids (N.new i).tail (N.new i)) (s : List Char) :
    occurrences (N.new i) (N.pass i s).text = occurrences (N.new i) s + (N.pass i s).count := by
  let pass := word (N.old i) (N.old_ne_nil i)
  show occurrences (N.new i) (pass.replace (fun _ => N.new i) s) =
    occurrences (N.new i) s + pass.count s
  induction s using pass.scan_induction with
  | nil => simp
  | @found s m hm ih =>
    obtain ⟨htext, heq⟩ := ((finds_pass i) s m).mp hm
    rw [Recogniser.replace_of_read hm, Recogniser.count_of_read hm, heq, htext,
      occurrences_self_append hne halone, (h.fresh i i).2.occurrences_append, ih, Nat.add_assoc]
  | @plain c s hn ih =>
    have hhead := h.isPrefix_pass_iff halone hn
    change N.new i <+: c :: pass.replace (fun _ => N.new i) s ↔ _ at hhead
    rw [Recogniser.replace_cons hn, Recogniser.count_cons hn, occurrences_cons, occurrences_cons,
      if_congr hhead rfl rfl, ih]
    exact Nat.add_right_comm _ _ _

end Separate

end Renaming

end WidgetMigration
