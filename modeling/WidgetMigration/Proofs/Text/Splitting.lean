import WidgetMigration.Text.Split

/-!
# Splitting and joining

Splitting undoes joining if no part holds the separator (`splitOn_joinWith`), and it goes through an
append at a separator (`splitOn_append_cons`).
-/

namespace WidgetMigration

variable {α : Type} [DecidableEq α] {sep : α}

theorem splitOn_of_not_mem {l : List α} (h : sep ∉ l) : splitOn sep l = [l] := by
  induction l with
  | nil => rfl
  | cons a l ih =>
    have ha : a ≠ sep := fun he => h (he ▸ List.mem_cons_self)
    rw [splitOn, if_neg ha, ih fun hmem => h (List.mem_cons_of_mem _ hmem)]

theorem splitOn_append_cons (l l' : List α) :
    splitOn sep (l ++ sep :: l') = splitOn sep l ++ splitOn sep l' := by
  induction l with
  | nil => simp [splitOn]
  | cons a l ih =>
    rw [List.cons_append, splitOn, splitOn, ih]
    by_cases ha : a = sep
    · rw [if_pos ha, if_pos ha]
      rfl
    · rw [if_neg ha, if_neg ha]
      cases hl : splitOn sep l with
      | nil => exact absurd hl (splitOn_ne_nil sep l)
      | cons part parts => rfl

/-- There is one part more than there are separators. -/
theorem length_splitOn (l : List α) : (splitOn sep l).length = l.count sep + 1 := by
  induction l with
  | nil => rfl
  | cons a l ih =>
    rw [splitOn, List.count_cons]
    by_cases ha : a = sep
    · rw [if_pos ha, List.length_cons, ih, if_pos (beq_iff_eq.mpr ha)]
    · rw [if_neg ha, if_neg (fun h => ha (beq_iff_eq.mp h))]
      cases hl : splitOn sep l with
      | nil => exact absurd hl (splitOn_ne_nil sep l)
      | cons part parts =>
        rw [Nat.add_zero, ← ih, hl]
        rfl

theorem not_mem_of_mem_splitOn {l part : List α} (h : part ∈ splitOn sep l) : sep ∉ part := by
  induction l generalizing part with
  | nil =>
    rw [splitOn, List.mem_singleton] at h
    rw [h]
    exact List.not_mem_nil
  | cons a l ih =>
    rw [splitOn] at h
    by_cases ha : a = sep
    · rw [if_pos ha] at h
      rcases List.mem_cons.mp h with rfl | hpart
      · exact List.not_mem_nil
      · exact ih hpart
    · rw [if_neg ha] at h
      cases hl : splitOn sep l with
      | nil => exact absurd hl (splitOn_ne_nil sep l)
      | cons first parts =>
        rw [hl] at h ih
        rcases List.mem_cons.mp h with rfl | hpart
        · intro hmem
          rcases List.mem_cons.mp hmem with hsep | hmem
          · exact ha hsep.symm
          · exact ih List.mem_cons_self hmem
        · exact ih (List.mem_cons_of_mem _ hpart)

/-- What stands in a part between separators stands in the list. -/
theorem isInfix_of_mem_splitOn {l part : List α}
    (h : part ∈ splitOn sep l) : part <:+: l := by
  have hjoin : ∀ parts : List (List α), part ∈ parts → part <:+: joinWith sep parts := by
    intro parts
    induction parts with
    | nil => exact fun h => absurd h List.not_mem_nil
    | cons first parts ih =>
      intro h
      cases parts with
      | nil =>
        rw [List.mem_singleton.mp h]
        exact List.infix_refl first
      | cons next parts =>
        rcases List.mem_cons.mp h with rfl | h
        · exact (List.prefix_append part _).isInfix
        · refine (ih h).trans ?_
          exact (List.suffix_append (first ++ [sep]) _).isInfix.trans (by simp [joinWith])
  rw [← joinWith_splitOn sep l]
  exact hjoin _ h

omit [DecidableEq α] in
theorem mem_joinWith {parts : List (List α)} {a : α} (h : a ∈ joinWith sep parts) :
    a = sep ∨ ∃ part ∈ parts, a ∈ part := by
  induction parts with
  | nil => cases h
  | cons part parts ih =>
    cases parts with
    | nil => exact .inr ⟨part, List.mem_cons_self, h⟩
    | cons next parts =>
      rcases List.mem_append.mp h with hpart | hrest
      · exact .inr ⟨part, List.mem_cons_self, hpart⟩
      rcases List.mem_cons.mp hrest with hsep | hrest
      · exact .inl hsep
      · exact (ih hrest).imp_right fun ⟨p, hp, ha⟩ => ⟨p, List.mem_cons_of_mem part hp, ha⟩

/-- Splitting gives back the parts that were joined. -/
theorem splitOn_joinWith {parts : List (List α)} (hne : parts ≠ [])
    (h : ∀ part ∈ parts, sep ∉ part) : splitOn sep (joinWith sep parts) = parts := by
  induction parts with
  | nil => exact absurd rfl hne
  | cons part parts ih =>
    obtain ⟨hpart, hparts⟩ := List.forall_mem_cons.mp h
    cases parts with
    | nil => exact splitOn_of_not_mem hpart
    | cons next parts =>
      show splitOn sep (part ++ sep :: joinWith sep (next :: parts)) = _
      rw [splitOn_append_cons, splitOn_of_not_mem hpart, ih (List.cons_ne_nil _ _) hparts]
      rfl

omit [DecidableEq α] in
/-- Parts that are added at the end stand behind a separator. -/
theorem joinWith_append_append {parts parts' : List (List α)} (hne : parts ≠ []) (hne' : parts' ≠ []) :
    joinWith sep (parts ++ parts') = joinWith sep parts ++ sep :: joinWith sep parts' := by
  induction parts with
  | nil => exact absurd rfl hne
  | cons first parts ih =>
    cases parts with
    | nil =>
      obtain ⟨next, rest, rfl⟩ := List.exists_cons_of_ne_nil hne'
      rfl
    | cons next parts =>
      show first ++ sep :: joinWith sep (next :: parts ++ parts') = _
      rw [ih (List.cons_ne_nil _ _)]
      show _ = (first ++ sep :: joinWith sep (next :: parts)) ++ sep :: joinWith sep parts'
      rw [List.append_assoc, List.cons_append]

/-- The last part is empty only of what is empty or ends in a separator. -/
theorem getLast?_of_splitOn {l : List α} (h : (splitOn sep l).getLast? = some []) :
    l = [] ∨ l.getLast? = some sep := by
  obtain ⟨parts, hparts⟩ := List.getLast?_eq_some_iff.mp h
  rw [← joinWith_splitOn sep l, hparts]
  by_cases hne : parts = []
  · exact .inl (by rw [hne]; rfl)
  · rw [joinWith_append_append hne (List.cons_ne_nil _ _)]
    exact .inr List.getLast?_concat

omit [DecidableEq α] in
/-- A part that is added at the end stands behind a separator. -/
theorem joinWith_append {parts : List (List α)} (hne : parts ≠ []) (part : List α) :
    joinWith sep (parts ++ [part]) = joinWith sep parts ++ sep :: part :=
  joinWith_append_append hne (List.cons_ne_nil part [])

end WidgetMigration
