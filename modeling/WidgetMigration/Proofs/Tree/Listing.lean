import WidgetMigration.Proofs.Path.Child
import WidgetMigration.Proofs.Tree.Entries
import WidgetMigration.Proofs.Tree.Steps

/-!
# Listing a directory and looking below it

What a path leads to, told by the location it resolves to (`list_eq_ok_iff`, `isDirectory_iff`,
`isFile_iff`), and how that hangs together along a path. The path of a child leads somewhere only
through the directory (`resolve_child`), so a child that is there is in the listing
(`mem_list_of_resolve_child`).
-/

namespace WidgetMigration

namespace FileTree

variable {t : FileTree} {p : Path} {purpose : Purpose}

/-! ## What a path leads to -/

theorem lookup_eq_ok_iff {loc : Location} {e : Entry} :
    t.lookup purpose p = .ok (loc, e) ↔
      t.resolve purpose p = .ok (.entry loc) ∧ t.get? loc = some e := by
  unfold lookup
  rcases hres : t.resolve purpose p with e' | (loc' | ⟨directory, name⟩)
  · simp
  · cases hget : t.get? loc' with
    | none =>
      simp only [hget, reduceCtorEq, Except.ok.injEq, Reached.entry.injEq, false_iff, not_and]
      rintro rfl h
      rw [hget] at h
      cases h
    | some e' =>
      simp only [hget, Except.ok.injEq, Prod.mk.injEq, Reached.entry.injEq]
      constructor
      · rintro ⟨rfl, rfl⟩
        exact ⟨rfl, hget⟩
      · rintro ⟨rfl, h⟩
        rw [hget] at h
        cases h
        exact ⟨rfl, rfl⟩
  · simp

theorem isFile_iff :
    t.isFile p = true ↔ ∃ loc content access,
      t.resolve .follow p = .ok (.entry loc) ∧ t.get? loc = some (.file content access) := by
  simp only [← lookup_eq_ok_iff]
  unfold isFile
  rcases t.lookup .follow p with e | ⟨loc, ⟨content, access⟩ | access | target⟩ <;> simp

theorem isDirectory_iff :
    t.isDirectory p = true ↔ ∃ loc access,
      t.resolve .follow p = .ok (.entry loc) ∧ t.get? loc = some (.directory access) := by
  simp only [← lookup_eq_ok_iff]
  unfold isDirectory
  rcases t.lookup .follow p with e | ⟨loc, ⟨content, access⟩ | access | target⟩ <;> simp

theorem list_eq_ok_iff {es : List (FileName × Entry)} :
    t.list p = .ok es ↔ ∃ loc access, t.resolve .follow p = .ok (.entry loc) ∧
      t.get? loc = some (.directory access) ∧ access.read = true ∧ es = t.children loc := by
  simp only [← and_assoc, ← lookup_eq_ok_iff]
  unfold list
  rcases t.lookup .follow p with e | ⟨loc, ⟨content, access⟩ | access | target⟩
  · simp
  · simp
  · cases hread : access.read with
    | false =>
      simp only [hread, Bool.false_eq_true, if_false, reduceCtorEq, false_iff]
      rintro ⟨_, _, ⟨heq, htrue⟩, _⟩
      cases heq
      rw [hread] at htrue
      cases htrue
    | true =>
      simp only [hread, if_true, Except.ok.injEq]
      constructor
      · rintro rfl
        exact ⟨loc, access, ⟨rfl, hread⟩, rfl⟩
      · rintro ⟨_, _, ⟨heq, _⟩, rfl⟩
        cases heq
        rfl
  · simp

theorem isDirectory_of_list {es : List (FileName × Entry)} (h : t.list p = .ok es) :
    t.isDirectory p = true := by
  obtain ⟨loc, access, hres, hget, _⟩ := list_eq_ok_iff.mp h
  exact isDirectory_iff.mpr ⟨loc, access, hres, hget⟩

/-- A listing has each name once. -/
theorem nodup_list {es : List (FileName × Entry)} (h : t.list p = .ok es) :
    (es.map Prod.fst).Nodup := by
  obtain ⟨loc, access, _, _, _, rfl⟩ := list_eq_ok_iff.mp h
  exact t.nodup_children loc

theorem eq_of_mem_list {es : List (FileName × Entry)} (h : t.list p = .ok es) {name : FileName}
    {e e' : Entry} (hmem : (name, e) ∈ es) (hmem' : (name, e') ∈ es) : e = e' :=
  congrArg Prod.snd (List.inj_on_of_nodup_map (nodup_list h) hmem hmem' rfl)

theorem isThere_of_isDirectory (h : t.isDirectory p = true) : t.isThere p = true := by
  obtain ⟨loc, access, hres, hget⟩ := isDirectory_iff.mp h
  unfold isThere
  rw [lookup_eq_ok_iff.mpr ⟨hres, hget⟩]
  exact Bool.or_true _

/-! ## Children -/

/-- The working directory can be asked about wherever a step can be taken from it. -/
theorem resolve_here (h : t.checkSearch t.workingDirectory = .ok ()) :
    t.resolve .follow Path.here = .ok (.entry t.workingDirectory) := by
  have hroute : Route.ofBytes Path.here.bytes = ⟨false, [dot], false⟩ := by decide
  refine resolve_eq_ok_iff.mpr ⟨by decide, by decide, by decide, ?_⟩
  rw [hroute]
  simp only [Bool.false_eq_true, if_false, walk_cons, move, h, if_true, walk_nil]
  exact checkEnd_of_checkSearch h false

/-- **The path of a child leads somewhere through the directory.** -/
theorem resolve_child {directory : Path} (hne : directory.bytes ≠ []) {step : Bytes}
    (hstep : IsStep step) {r : Reached} (h : t.resolve purpose (directory.child step) = .ok r) :
    ∃ links loc, t.resolve .follow directory = .ok (.entry loc) ∧
      t.checkSearch loc = .ok () ∧ t.walk purpose links loc [step] false = .ok r := by
  obtain ⟨hnul, _, hlong, hwalk⟩ := resolve_eq_ok_iff.mp h
  rcases Path.ofBytes_child hne hstep with ⟨rfl, hroute⟩ | ⟨hhere, hroute⟩
  · rw [hroute] at hwalk
    have hsearch := checkSearch_of_walk hwalk
    exact ⟨maxLinks, t.workingDirectory, resolve_here hsearch, hsearch, hwalk⟩
  · rw [hroute] at hwalk
    obtain ⟨links, loc, hdirectory, hsearch, hlast⟩ :=
      walk_append (Route.ofBytes directory.bytes).endsInSlash hwalk
    have hbegins := Path.prefix_child hhere hstep
    refine ⟨links, loc, resolve_eq_ok_iff.mpr ⟨?_, hne, ?_, hdirectory⟩, hsearch, hlast⟩
    · exact fun hmem => hnul (hbegins.subset hmem)
    · exact Nat.lt_of_le_of_lt hbegins.length_le hlong

theorem isDirectory_of_resolve_child {directory : Path} (hne : directory.bytes ≠ []) {step : Bytes}
    (hstep : IsStep step) {r : Reached} (h : t.resolve purpose (directory.child step) = .ok r) :
    t.isDirectory directory = true := by
  obtain ⟨_, loc, hres, hsearch, _⟩ := resolve_child hne hstep h
  obtain ⟨access, hget, _⟩ := checkSearch_eq_ok_iff.mp hsearch
  exact isDirectory_iff.mpr ⟨loc, access, hres, hget⟩

/-- **A child that is there is in the listing**, as what it is unless it is a link. -/
theorem mem_list_of_resolve_child {directory : Path} (hne : directory.bytes ≠ []) {name : FileName}
    {es : List (FileName × Entry)} (hlist : t.list directory = .ok es) {loc : Location} {e : Entry}
    (h : t.resolve .follow (directory.child name.bytes) = .ok (.entry loc))
    (hget : t.get? loc = some e) :
    (name, e) ∈ es ∨ ∃ target, (name, .link target) ∈ es := by
  obtain ⟨links, parent, hres, _, hwalk⟩ := resolve_child hne name.isStep h
  obtain ⟨parent', access, hres', _, _, rfl⟩ := list_eq_ok_iff.mp hlist
  rw [hres] at hres'
  cases hres'
  obtain ⟨e', hentry, ⟨target, rfl⟩ | rfl⟩ := walk_name hwalk
  · exact .inr ⟨target, mem_children_iff.mpr hentry⟩
  · exact .inl (mem_children_iff.mpr hget)

/-- The path of a child is followed from where the directory's path leads, if it can be one. -/
theorem resolve_child_eq (purpose : Purpose) {directory : Path} (hne : directory.bytes ≠ []) {step : Bytes}
    (hstep : IsStep step) {loc : Location} (h : t.resolve .follow directory = .ok (.entry loc))
    (hnul : 0 ∉ (directory.child step).bytes)
    (hlong : (directory.child step).bytes.length < maxPathLength) :
    ∃ links, t.resolve purpose (directory.child step) = t.walk purpose links loc [step] false := by
  have hempty : (directory.child step).bytes ≠ [] := by
    rcases Path.child_cases directory hstep with ⟨_, heq⟩ | ⟨_, _, heq⟩ | ⟨_, _, _, heq⟩
    · rw [heq]
      exact hstep.ne_nil
    · rw [heq]
      exact List.append_ne_nil_of_right_ne_nil _ hstep.ne_nil
    · rw [heq]
      exact List.append_ne_nil_of_right_ne_nil _ (List.cons_ne_nil _ _)
  have hresolve : t.resolve purpose (directory.child step) = t.walk purpose maxLinks
      (if (Route.ofBytes (directory.child step).bytes).absolute then [] else t.workingDirectory)
      (Route.ofBytes (directory.child step).bytes).steps
      (Route.ofBytes (directory.child step).bytes).endsInSlash := by
    unfold resolve
    rw [if_neg fun hc => hnul (List.contains_iff_mem.mp hc), if_neg hempty,
      if_neg (Nat.not_le.mpr hlong)]
  obtain ⟨_, _, _, hwalk⟩ := resolve_eq_ok_iff.mp h
  rcases Path.ofBytes_child hne hstep with ⟨rfl, hroute⟩ | ⟨_, hroute⟩
  · have hroute' : Route.ofBytes Path.here.bytes = ⟨false, [dot], false⟩ := by decide
    rw [hroute'] at hwalk
    have hhere := resolve_here (checkSearch_of_walk hwalk)
    rw [h] at hhere
    cases hhere
    rw [hresolve, hroute]
    exact ⟨maxLinks, rfl⟩
  · obtain ⟨links, heq⟩ := walk_append_of_walk hwalk
    rw [hresolve, hroute]
    exact ⟨links, heq purpose step false⟩

/-- What a listing has for a directory may be out of reach, but it is not missing. -/
theorem lookup_child_ne_notFound {directory : Path} (hne : directory.bytes ≠ [])
    {es : List (FileName × Entry)} (hlist : t.list directory = .ok es) {name : FileName}
    {access : Access} (hmem : (name, .directory access) ∈ es) :
    t.lookup .follow (directory.child name.bytes) ≠ .error .notFound := by
  obtain ⟨loc, access', hres, hget, _, rfl⟩ := list_eq_ok_iff.mp hlist
  have hentry := mem_children_iff.mp hmem
  intro h
  by_cases hnul : 0 ∈ (directory.child name.bytes).bytes
  · have herror : t.resolve .follow (directory.child name.bytes) = .error .nulInPath :=
      if_pos (List.contains_iff_mem.mpr hnul)
    rw [lookup, herror] at h
    cases h
  by_cases hlong : maxPathLength ≤ (directory.child name.bytes).bytes.length
  · have hempty : (directory.child name.bytes).bytes ≠ [] := by
      intro hempty
      rw [hempty] at hlong
      exact absurd hlong (by decide)
    have herror : t.resolve .follow (directory.child name.bytes) = .error .nameTooLong := by
      unfold resolve
      rw [if_neg fun hc => hnul (List.contains_iff_mem.mp hc), if_neg hempty, if_pos hlong]
    rw [lookup, herror] at h
    cases h
  obtain ⟨links, heq⟩ := resolve_child_eq .follow hne name.isStep hres hnul
    (Nat.lt_of_not_le hlong)
  cases hsearch : access'.search with
  | false =>
    have herror : t.resolve .follow (directory.child name.bytes) = .error .permissionDenied := by
      simp [heq, walk_cons, move, checkSearch, hget, hsearch]
    rw [lookup, herror] at h
    cases h
  | true =>
    have hreached := walk_name_of_get? links
      (checkSearch_eq_ok_iff.mpr ⟨access', hget, hsearch⟩) hentry fun _ hlink => by cases hlink
    rw [lookup_eq_ok_iff.mpr ⟨heq.trans hreached, hentry⟩] at h
    cases h

end FileTree

end WidgetMigration
