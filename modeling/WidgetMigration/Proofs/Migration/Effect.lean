import WidgetMigration.Proofs.Migration.Entries
import WidgetMigration.Proofs.Migration.Finding
import WidgetMigration.Proofs.Migration.OneFile

/-!
# What a migration leaves behind

A migration changes the texts of files and nothing else. Several of the paths that were found may
lead to one file, so a file is migrated as often as paths lead to it (`FileTree.timesFound`), each
time from what the time before left.

The invariant of the loop over the paths is that the tree is the first tree with its files mapped
(`migrateFiles_tree`). Mapping keeps the shape of a tree, so each path still leads where it led when
it was found. `migrate_tree` reads the law of whole migrations off the mapped tree.
-/

namespace WidgetMigration

namespace FileTree

/-- How many of some paths lead to a location. -/
def timesFound (t : FileTree) (paths : List Path) (loc : Location) : Nat :=
  paths.countP fun p => t.resolve .follow p = .ok (.entry loc)

variable {t t' : FileTree}

theorem SameShape.timesFound (h : SameShape t t') (paths : List Path) (loc : Location) :
    t.timesFound paths loc = t'.timesFound paths loc := by
  unfold FileTree.timesFound
  simp only [h.resolve]

end FileTree

/-! ## The run over the files -/

/-- **The tree after some files were migrated**: each file is migrated as often as a path led to it. -/
theorem migrateFiles_tree (target : Target) {paths : List Path} {t : FileTree}
    (h : ∀ p ∈ paths, t.isFile p = true) :
    (migrateFiles target false paths t).2 = t.mapFiles fun loc content access =>
      (migrateContent access)^[t.timesFound paths loc] content := by
  induction paths generalizing t with
  | nil => exact t.mapFiles_self.symm
  | cons p paths ih =>
    obtain ⟨loc, content, access, hres, hget⟩ := FileTree.isFile_iff.mp (h p List.mem_cons_self)
    have hshape := t.sameShape_mapFiles fun loc' old access' =>
      if loc' = loc then migrateContent access' old else old
    have hlater : ∀ q ∈ paths, FileTree.isFile _ q = true := fun q hq =>
      (hshape.isFile q).symm.trans (h q (List.mem_cons_of_mem _ hq))
    show (migrateFiles target false paths (migrateFile t false p).2).2 = _
    rw [migrateFile_tree hres hget, ih hlater, FileTree.mapFiles_mapFiles]
    refine FileTree.mapFiles_congr _ fun loc' old access' _ => ?_
    rw [← hshape.timesFound]
    unfold FileTree.timesFound
    by_cases hloc : loc' = loc
    · subst hloc
      rw [List.countP_cons_of_pos (by simpa using hres), if_pos rfl, Function.iterate_succ_apply]
    · have hother : ¬ t.resolve .follow p = .ok (.entry loc') := by
        rw [hres]
        intro heq
        cases heq
        exact hloc rfl
      rw [List.countP_cons_of_neg (by simpa using hother), if_neg hloc]

/-- A dry run leaves a file as it is. -/
theorem migrateFile_dryRun (t : FileTree) (p : Path) : (migrateFile t true p).2 = t := by
  rcases migrateFile_cases t true p with
    ⟨e, _, h⟩ | ⟨text, _, ⟨_, h⟩ | ⟨_, t', htree, h⟩ | ⟨_, hdry, _⟩⟩
  · rw [h]
  · rw [h]
  · rw [h]
    exact htree
  · cases hdry

theorem migrateFiles_dryRun (target : Target) (paths : List Path) (t : FileTree) :
    (migrateFiles target true paths t).2 = t := by
  induction paths generalizing t with
  | nil => rfl
  | cons p paths ih =>
    show (migrateFiles target true paths (migrateFile t true p).2).2 = t
    rw [migrateFile_dryRun, ih]

/-! ## What is in a file -/

/-- A text that may be read and written goes through the rules each time. -/
theorem iterate_migrateContent {access : Access} (hread : access.read = true)
    (hwrite : access.write = true) (n : Nat) (text : String) :
    (migrateContent access)^[n] (Utf8.encode text) =
      Utf8.encode ((fun s => (applyAll s).content)^[n] text) := by
  induction n generalizing text with
  | zero => rfl
  | succ n ih =>
    have hstep : migrateContent access (Utf8.encode text) = Utf8.encode (applyAll text).content := by
      simp [migrateContent, hread, hwrite]
    rw [Function.iterate_succ_apply, Function.iterate_succ_apply, hstep, ih]

/-! ## Whole migrations -/

/-- A tree in which the text of each file went through the rules as often as `times` says, as far as
it is a text that may be read and written. Nothing else is different. -/
structure Rewritten (times : Location → Nat) (before after : FileTree) : Prop where
  workingDirectory : after.workingDirectory = before.workingDirectory
  locations : after.entries.map Prod.fst = before.entries.map Prod.fst
  rewritten : ∀ {loc content access text}, before.get? loc = some (.file content access) →
    Utf8.decode? content = some text → access.read = true → access.write = true →
    after.get? loc =
      some (.file (Utf8.encode ((fun s => (applyAll s).content)^[times loc] text)) access)
  kept : ∀ {loc content access}, before.get? loc = some (.file content access) →
    (times loc = 0 ∨ Utf8.decode? content = none ∨ access.read = false ∨ access.write = false) →
    after.get? loc = some (.file content access)
  others : ∀ {loc}, (∀ content access, before.get? loc ≠ some (.file content access)) →
    after.get? loc = before.get? loc

theorem rewritten_mapFiles (t : FileTree) (times : Location → Nat) :
    Rewritten times t (t.mapFiles fun loc content access =>
      (migrateContent access)^[times loc] content) where
  workingDirectory := rfl
  locations := by
    show (t.entries.map _).map _ = _
    rw [List.map_map]
    rfl
  rewritten := by
    intro loc content access text hget htext hread hwrite
    rw [FileTree.get?_mapFiles, hget, Option.map_some, Entry.mapContent,
      ← Utf8.decode?_eq_some_iff.mp htext, iterate_migrateContent hread hwrite]
  kept := by
    intro loc content access hget h
    rw [FileTree.get?_mapFiles, hget, Option.map_some, Entry.mapContent]
    rcases h with hzero | h
    · rw [hzero, Function.iterate_zero_apply]
    · rw [Function.iterate_fixed (migrateContent_eq_self h)]
  others := by
    intro loc h
    rw [FileTree.get?_mapFiles]
    rcases hget : t.get? loc with _ | (⟨content, access⟩ | access | target)
    · rfl
    · exact absurd hget (h content access)
    · rfl
    · rfl

/-- **What a migration leaves behind.** Each file went through the rules as often as it was found; a
dry run and a migration that fails leave the tree as it was. -/
theorem migrate_tree (t : FileTree) (target : Target) :
    (∀ d, target.discover t = .ok d →
      Rewritten (t.timesFound d.files) t (migrate t target false).2) ∧
    (migrate t target true).2 = t ∧
    (∀ dryRun f, (migrate t target dryRun).1 = .error f → (migrate t target dryRun).2 = t) := by
  refine ⟨?_, ?_, ?_⟩
  · intro d hd
    have hrun : (migrate t target false).2 = (migrateFiles target false d.files t).2 := by
      unfold migrate
      rw [hd]
    rw [hrun, migrateFiles_tree target fun p hp => isFile_of_mem_discover hd hp]
    exact rewritten_mapFiles t _
  · unfold migrate
    cases target.discover t with
    | error f => rfl
    | ok d => exact migrateFiles_dryRun target d.files t
  · intro dryRun f h
    unfold migrate at h ⊢
    cases hd : target.discover t with
    | error f => rfl
    | ok d =>
      rw [hd] at h
      cases h

/-- Two paths lead to the file of the small tree, so it is migrated twice. -/
theorem migrate_tree_sample :
    Sample.target.discover Sample.tree = .ok Sample.discovery ∧
      Sample.tree.timesFound Sample.discovery.files [Sample.directoryName, Sample.fileName] = 2 ∧
      (migrate Sample.tree Sample.target false).2.get? [Sample.directoryName, Sample.fileName] =
        some (.file (Utf8.encode "onPress:") .full) := by
  have htimes : Sample.tree.timesFound Sample.discovery.files
      [Sample.directoryName, Sample.fileName] = 2 := by
    cbv
  have hfile : Sample.tree.get? [Sample.directoryName, Sample.fileName] =
      some (.file (Utf8.encode "onPressed:") .full) := rfl
  have hafter := ((migrate_tree Sample.tree Sample.target).1 _ Sample.discover_tree).rewritten hfile
    (Utf8.decode?_encode "onPressed:") rfl rfl
  have htext : (fun s => (applyAll s).content)^[2] "onPressed:" = "onPress:" := by
    decide +kernel
  rw [htimes, htext] at hafter
  exact ⟨Sample.discover_tree, htimes, hafter⟩

end WidgetMigration
