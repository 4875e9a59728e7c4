import WidgetMigration.Migration.Run
import WidgetMigration.Proofs.Rule.Shrinking
import WidgetMigration.Proofs.Text.Utf8
import WidgetMigration.Proofs.Tree.Listing
import WidgetMigration.Proofs.Tree.Shape

/-!
# Migrating one file

What `migrateFile` reports and what it leaves behind. The report counts changes exactly where the
text changed, as no chain of rules gives back the text it began with (`count_eq_zero_iff_unchanged`).

What it does, it does in one of four cases (`migrateFile_cases`): the file cannot be read, the rules
leave its text, its text changes, or it cannot be written.

The tree it leaves is the tree it was given with one file mapped (`migrateFile_tree`). A file whose
bytes are no text, or that may not be both read and written, keeps its bytes: `migrateContent` says
so once for every way to fail.
-/

namespace WidgetMigration

/-! ## The report of a file -/

/-- **What migrating a file does**, in four cases. -/
theorem migrateFile_cases (t : FileTree) (dryRun : Bool) (path : Path) :
    (∃ e, t.read path = .error e ∧
      migrateFile t dryRun path = (.error (.io e.message ("read " ++ path.display)), t)) ∨
    ∃ text, t.read path = .ok text ∧
      (((applyAll text).content = text ∧
        migrateFile t dryRun path =
          (.ok ⟨(applyAll text).total, (applyAll text).hits, false⟩, t)) ∨
      ((applyAll text).content ≠ text ∧ ∃ t',
        (if dryRun then t' = t else t.write? path (applyAll text).content = .ok t') ∧
        migrateFile t dryRun path =
          (.ok ⟨(applyAll text).total, (applyAll text).hits, true⟩, t')) ∨
      ((applyAll text).content ≠ text ∧ dryRun = false ∧ ∃ e,
        t.write? path (applyAll text).content = .error e ∧
        migrateFile t dryRun path = (.error (.io e.message ("write " ++ path.display)), t))) := by
  unfold migrateFile readText
  cases t.read path with
  | error e => exact .inl ⟨e, rfl, rfl⟩
  | ok text =>
    refine .inr ⟨text, rfl, ?_⟩
    by_cases hsame : (applyAll text).content = text
    · exact .inl ⟨hsame, by simp only [if_pos hsame]⟩
    simp only [if_neg hsame]
    cases dryRun with
    | true => exact .inr (.inl ⟨hsame, t, rfl, rfl⟩)
    | false =>
      unfold writeText
      cases hwrite : t.write? path (applyAll text).content with
      | ok t' => exact .inr (.inl ⟨hsame, t', rfl, rfl⟩)
      | error e => exact .inr (.inr ⟨hsame, rfl, e, rfl, rfl⟩)

/-- A migrated file is modified exactly when changes were counted in it. -/
theorem modified_migrateFile (t : FileTree) (dryRun : Bool) (path : Path) :
    (migrateFile t dryRun path).1.map FileChange.modified =
      (migrateFile t dryRun path).1.map fun change => decide (0 < change.changes) := by
  unfold migrateFile
  cases readText t path ("read " ++ path.display) with
  | error f => rfl
  | ok text =>
    have hcount := total_applyRules_eq_zero_iff Rule.all text
    by_cases hsame : (applyAll text).content = text
    · simp only [if_pos hsame]
      have hzero : (applyAll text).total = 0 := hcount.mpr hsame
      simp [Except.map, hzero]
    · simp only [if_neg hsame]
      have hpos : 0 < (applyAll text).total :=
        Nat.pos_of_ne_zero fun hzero => hsame (hcount.mp hzero)
      cases dryRun with
      | true => simp [Except.map, hpos]
      | false =>
        cases writeText t path (applyAll text).content ("write " ++ path.display) with
        | error f => rfl
        | ok t' => simp [Except.map, hpos]

/-- **Changes are counted exactly where a text changes**, by each rule, by the whole chain, and by
the migration of a file. -/
theorem count_eq_zero_iff_unchanged :
    (∀ (r : Rule) (text : String), (r.apply text).count = 0 ↔ (r.apply text).content = text) ∧
    (∀ text : String, (applyAll text).total = 0 ↔ (applyAll text).content = text) ∧
    (∀ (t : FileTree) (dryRun : Bool) (path : Path) (change : FileChange),
      (migrateFile t dryRun path).1 = .ok change →
        (change.modified = true ↔ 0 < change.changes)) := by
  refine ⟨Rule.count_apply_eq_zero_iff, total_applyRules_eq_zero_iff Rule.all, ?_⟩
  intro t dryRun path change h
  have hmodified := modified_migrateFile t dryRun path
  rw [h] at hmodified
  simp only [Except.map, Except.ok.injEq] at hmodified
  rw [hmodified, decide_eq_true_iff]

/-! ## The tree of a file -/

/-- What a migration makes of the bytes of a file. -/
def migrateContent (access : Access) (content : Bytes) : Bytes :=
  if access.read && access.write then
    match Utf8.decode? content with
    | some text => Utf8.encode (applyAll text).content
    | none => content
  else content

/-- Bytes that are no text, or that may not be read or written, stay. -/
theorem migrateContent_eq_self {access : Access} {content : Bytes}
    (h : Utf8.decode? content = none ∨ access.read = false ∨ access.write = false) :
    migrateContent access content = content := by
  unfold migrateContent
  rcases h with h | h | h
  · simp [h]
  · simp [h]
  · simp [h]

namespace FileTree

variable {t : FileTree} {p : Path} {loc : Location} {content : Bytes} {access : Access}

/-- The top of a tree is no file. -/
theorem ne_nil_of_get?_file (h : t.get? loc = some (.file content access)) : loc ≠ [] := by
  rintro rfl
  cases h

/-- A file can be read if its read bit is set and its bytes are a text. -/
theorem read_of_resolve (hres : t.resolve .follow p = .ok (.entry loc))
    (hget : t.get? loc = some (.file content access)) :
    (∃ text, access.read = true ∧ Utf8.decode? content = some text ∧ t.read p = .ok text) ∨
      ((access.read = false ∨ Utf8.decode? content = none) ∧ ∃ e, t.read p = .error e) := by
  have hlookup := lookup_eq_ok_iff.mpr ⟨hres, hget⟩
  cases hread : access.read with
  | false =>
    have heq : t.read p = .error .permissionDenied := by simp [read, hlookup, hread]
    exact .inr ⟨.inl rfl, _, heq⟩
  | true =>
    cases htext : Utf8.decode? content with
    | none =>
      have heq : t.read p = .error .notAText := by simp [read, hlookup, hread, htext]
      exact .inr ⟨.inr rfl, _, heq⟩
    | some text =>
      have heq : t.read p = .ok text := by simp [read, hlookup, hread, htext]
      exact .inl ⟨text, rfl, rfl, heq⟩

/-- A file that can be reached for reading is reached for writing. -/
theorem resolve_create_of_follow (hres : t.resolve .follow p = .ok (.entry loc))
    (hget : t.get? loc = some (.file content access)) :
    t.resolve .create p = .ok (.entry loc) := by
  obtain ⟨hnul, hempty, hlong, hwalk⟩ := resolve_eq_ok_iff.mp hres
  refine resolve_eq_ok_iff.mpr ⟨hnul, hempty, hlong, ?_⟩
  refine walk_create_of_follow hwalk fun access' hdir => ?_
  rw [hget] at hdir
  cases hdir

theorem write?_of_resolve (hres : t.resolve .follow p = .ok (.entry loc))
    (hget : t.get? loc = some (.file content access)) (text : String) :
    t.write? p text = if access.write then .ok (t.set loc (.file (Utf8.encode text) access))
      else .error .permissionDenied := by
  unfold write?
  simp only [resolve_create_of_follow hres hget, hget]

end FileTree

/-- The file at a location gets a new content. -/
theorem migrateFile_tree_eq {t : FileTree} {p : Path} {loc : Location} {content : Bytes}
    {access : Access} (hres : t.resolve .follow p = .ok (.entry loc))
    (hget : t.get? loc = some (.file content access)) :
    (migrateFile t false p).2 =
      t.mapFiles fun loc' old _ => if loc' = loc then migrateContent access content else old := by
  have hloc := FileTree.ne_nil_of_get?_file hget
  have hmem := (FileTree.mem_entries_iff hloc).mpr hget
  have hkept : migrateContent access content = content → t = t.mapFiles fun loc' old _ =>
      if loc' = loc then migrateContent access content else old := by
    intro h
    refine t.mapFiles_self.symm.trans (FileTree.mapFiles_congr _ fun loc' content' access' hmem' => ?_)
    by_cases hloc' : loc' = loc
    · subst hloc'
      have hsame := FileTree.eq_of_mem_entries hmem' hmem
      cases hsame
      rw [if_pos rfl, h]
    · rw [if_neg hloc']
  unfold migrateFile readText
  rcases FileTree.read_of_resolve hres hget with
    ⟨text, hread, htext, heq⟩ | ⟨hcannot, e, heq⟩
  · have hcontent : Utf8.encode text = content := Utf8.decode?_eq_some_iff.mp htext
    rw [heq]
    by_cases hsame : (applyAll text).content = text
    · simp only [if_pos hsame]
      exact hkept (by simp [migrateContent, htext, hsame, hcontent])
    simp only [if_neg hsame, Bool.false_eq_true, if_false, writeText,
      FileTree.write?_of_resolve hres hget]
    cases hwrite : access.write with
    | false => exact hkept (by simp [migrateContent, hwrite])
    | true =>
      have hnew : migrateContent access content = Utf8.encode (applyAll text).content := by
        simp [migrateContent, hread, hwrite, htext]
      simp only [if_true, hnew]
      exact FileTree.set_eq_mapFiles hloc hget _
  · rw [heq]
    refine hkept (migrateContent_eq_self ?_)
    rcases hcannot with hread | htext
    · exact .inr (.inl hread)
    · exact .inl htext

/-- **What migrating a file leaves behind**: the tree with this one file mapped. -/
theorem migrateFile_tree {t : FileTree} {p : Path} {loc : Location} {content : Bytes}
    {access : Access} (hres : t.resolve .follow p = .ok (.entry loc))
    (hget : t.get? loc = some (.file content access)) :
    (migrateFile t false p).2 = t.mapFiles fun loc' old access' =>
      if loc' = loc then migrateContent access' old else old := by
  rw [migrateFile_tree_eq hres hget]
  refine FileTree.mapFiles_congr _ fun loc' old access' hmem => ?_
  by_cases hloc : loc' = loc
  · subst hloc
    have hnil := FileTree.ne_nil_of_get?_file hget
    cases FileTree.eq_of_mem_entries hmem ((FileTree.mem_entries_iff hnil).mpr hget)
    rfl
  · rw [if_neg hloc, if_neg hloc]

/-! ## The report of a file in another tree -/

/-- What is reported of a file hangs on its bytes and who may use it, and on nothing else. -/
theorem migrateFile_result_congr {t t' : FileTree} (dryRun : Bool) {p : Path} {loc loc' : Location}
    {content : Bytes} {access : Access} (h : t.lookup .follow p = .ok (loc, .file content access))
    (h' : t'.lookup .follow p = .ok (loc', .file content access)) :
    (migrateFile t dryRun p).1 = (migrateFile t' dryRun p).1 := by
  obtain ⟨hres, hget⟩ := FileTree.lookup_eq_ok_iff.mp h
  obtain ⟨hres', hget'⟩ := FileTree.lookup_eq_ok_iff.mp h'
  have hread : readText t p = readText t' p := by
    funext operation
    unfold readText FileTree.read
    rw [h, h']
  unfold migrateFile
  rw [hread]
  cases readText t' p ("read " ++ p.display) with
  | error f => rfl
  | ok text =>
    by_cases hsame : (applyAll text).content = text
    · simp only [if_pos hsame]
    simp only [if_neg hsame]
    cases dryRun with
    | true => rfl
    | false =>
      unfold writeText
      rw [FileTree.write?_of_resolve hres hget, FileTree.write?_of_resolve hres' hget']
      cases access.write <;> rfl

end WidgetMigration
