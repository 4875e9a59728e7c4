import Mathlib.Data.List.Nodup
import WidgetMigration.Tree.Access

/-!
# The entries of a tree

Each location has one entry, so what stands in the list of entries and what `get?` finds are the same
(`mem_entries_iff`). A directory has the entries that lie one name below it, each name once
(`mem_children_iff`, `nodup_children`).
-/

namespace WidgetMigration

namespace FileTree

variable {t : FileTree} {loc : Location} {e e' : Entry}

/-- A location has one entry. -/
theorem eq_of_mem_entries (h : (loc, e) ∈ t.entries) (h' : (loc, e') ∈ t.entries) : e = e' :=
  congrArg Prod.snd (List.inj_on_of_nodup_map t.unique h h' rfl)

theorem mem_entries_iff (hloc : loc ≠ []) : (loc, e) ∈ t.entries ↔ t.get? loc = some e := by
  have hget : t.get? loc = t.entries.lookup loc := by
    cases loc with
    | nil => exact absurd rfl hloc
    | cons name loc => rfl
  have hmem : ∀ {e'}, t.entries.lookup loc = some e' → (loc, e') ∈ t.entries := by
    intro e' h
    obtain ⟨l₁, l₂, hentries, _⟩ := List.lookup_eq_some_iff.mp h
    rw [hentries]
    exact List.mem_append_right _ List.mem_cons_self
  rw [hget]
  constructor
  · intro h
    cases hlookup : t.entries.lookup loc with
    | none =>
      have hkey := List.lookup_eq_none_iff.mp hlookup _ h
      simp at hkey
    | some e' => rw [eq_of_mem_entries (hmem hlookup) h]
  · exact hmem

/-! ## The entries of a directory -/

theorem nameIn?_eq_some_iff {directory : Location} {name : FileName} :
    nameIn? directory loc = some name ↔ loc = directory ++ [name] := by
  unfold nameIn?
  constructor
  · intro h
    cases hlast : loc.getLast? with
    | none =>
      rw [hlast] at h
      cases h
    | some last =>
      simp only [hlast] at h
      by_cases hloc : loc = directory ++ [last]
      · rw [if_pos hloc] at h
        cases h
        exact hloc
      · rw [if_neg hloc] at h
        cases h
  · rintro rfl
    simp

theorem mem_children_iff {name : FileName} :
    (name, e) ∈ t.children loc ↔ t.get? (loc ++ [name]) = some e := by
  have hne : loc ++ [name] ≠ [] := List.append_ne_nil_of_right_ne_nil loc (List.cons_ne_nil _ _)
  unfold children
  rw [List.mem_mergeSort, List.mem_filterMap, ← mem_entries_iff hne]
  constructor
  · rintro ⟨⟨loc', e'⟩, hmem, hsome⟩
    obtain ⟨name', hname, heq⟩ := Option.map_eq_some_iff.mp hsome
    cases heq
    obtain rfl := nameIn?_eq_some_iff.mp hname
    exact hmem
  · intro hmem
    refine ⟨_, hmem, ?_⟩
    rw [nameIn?_eq_some_iff.mpr rfl]
    rfl

/-- A directory has each name once. -/
theorem nodup_children (t : FileTree) (loc : Location) :
    ((t.children loc).map Prod.fst).Nodup := by
  unfold children
  refine ((List.mergeSort_perm _ _).map _).nodup_iff.mpr ?_
  rw [List.Nodup, List.pairwise_map, List.pairwise_filterMap]
  refine (List.pairwise_map.mp t.unique).imp ?_
  intro p q hne a ha b hb hname
  obtain ⟨name, hp, rfl⟩ := Option.map_eq_some_iff.mp ha
  obtain ⟨name', hq, rfl⟩ := Option.map_eq_some_iff.mp hb
  refine hne ?_
  rw [nameIn?_eq_some_iff.mp hp, nameIn?_eq_some_iff.mp hq]
  exact congrArg (fun n => loc ++ [n]) hname

end FileTree

end WidgetMigration
