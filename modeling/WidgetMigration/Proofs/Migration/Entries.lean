import WidgetMigration.Migration.Run
import WidgetMigration.Proofs.Report.Counting

/-!
# The entries of a report

What a discovery holds comes from a walk (`discover_eq_ok_iff`): the regular files in the order of
their paths, and the directories that could not be listed in the order of the walk.

A migration takes the files one after the other, each in its turn: with the tree that the turns before
left (`turns`). A report has an entry for each directory that could not be listed, and then one for
each file, told by its turn. `Tells` says so of the whole report, and `zip_entries` of each entry with
the path it stands for.
-/

namespace WidgetMigration

open FileTree Wildcard

/-! ## What was discovered -/

/-- The path of a regular file that a walk came upon. -/
def FileTree.foundFile? (t : FileTree) : Find → Option Path
  | .place p => if t.isFile p.path then some p.path else none
  | .unreadable .. => none

/-- The path of a directory that a walk could not list. -/
def Find.unreadablePath? : Find → Option Path
  | .place _ => none
  | .unreadable path _ => some path

section

variable {t : FileTree} {target : Target} {finds : List Find}

/-- A discovery comes from a walk. -/
theorem discover_eq_ok_iff {d : Discovery} :
    target.discover t = .ok d ↔ ∃ base pattern, target.baseDir.toString? = some base ∧
      Pattern.parse (Target.pattern base target.extension) = .ok pattern ∧
      d = Target.discoveryOf t (t.matching pattern) := by
  unfold Target.discover
  cases target.baseDir.toString? with
  | none => simp
  | some base =>
    cases hparse : Pattern.parse (Target.pattern base target.extension) with
    | error e => simp [hparse]
    | ok pattern => simp [hparse, eq_comm]

theorem mem_files_discoveryOf {p : Path} :
    p ∈ (Target.discoveryOf t finds).files ↔
      ∃ q, .place q ∈ finds ∧ t.isFile q.path = true ∧ q.path = p := by
  show p ∈ (finds.filterMap t.foundFile?).mergeSort Path.le ↔ _
  rw [List.mem_mergeSort, List.mem_filterMap]
  constructor
  · rintro ⟨find, hfind, hp⟩
    cases find with
    | unreadable path e => cases hp
    | place q => exact ⟨q, hfind, Option.ite_none_right_eq_some.mp hp |>.imp_right Option.some.inj⟩
  · rintro ⟨q, hq, hfile, rfl⟩
    exact ⟨.place q, hq, if_pos hfile⟩

/-- Only regular files are discovered. -/
theorem isFile_of_mem_discover {d : Discovery} (h : target.discover t = .ok d) {p : Path}
    (hp : p ∈ d.files) : t.isFile p = true := by
  obtain ⟨base, pattern, _, _, rfl⟩ := discover_eq_ok_iff.mp h
  obtain ⟨q, _, hfile, rfl⟩ := mem_files_discoveryOf.mp hp
  exact hfile

theorem mem_unreadable_discoveryOf {path : Path} {f : Failure} :
    (path, f) ∈ (Target.discoveryOf t finds).unreadable ↔
      ∃ e, .unreadable path e ∈ finds ∧ Target.unreadableDirectory path e = f := by
  show _ ∈ finds.filterMap _ ↔ _
  rw [List.mem_filterMap]
  constructor
  · rintro ⟨find, hfind, hp⟩
    cases find with
    | place q => cases hp
    | unreadable path' e =>
      cases hp
      exact ⟨e, hfind, rfl⟩
  · rintro ⟨e, hfind, rfl⟩
    exact ⟨_, hfind, rfl⟩

theorem paths_unreadable_discoveryOf (t : FileTree) (finds : List Find) :
    (Target.discoveryOf t finds).unreadable.map Prod.fst =
      finds.filterMap Find.unreadablePath? := by
  show (finds.filterMap _).map Prod.fst = _
  rw [List.map_filterMap]
  congr 1
  funext find
  cases find <;> rfl

end

/-! ## The turns of files -/

/-- The turns of some files: each with the tree in which it is migrated. -/
def turns (dryRun : Bool) : List Path → FileTree → List (Path × FileTree)
  | [], _ => []
  | path :: paths, t => (path, t) :: turns dryRun paths (migrateFile t dryRun path).2

/-- What the report says about a file in its turn. -/
def Target.entryOf (target : Target) (dryRun : Bool) (turn : Path × FileTree) : FileReport :=
  ⟨target.nameOf turn.1, .ofResult (migrateFile turn.2 dryRun turn.1).1⟩

/-- What the report says about a directory that could not be listed. -/
def Target.entryOfUnreadable (target : Target) (unreadable : Path × Failure) : FileReport :=
  ⟨target.nameOf unreadable.1, .failed unreadable.2.message⟩

/-- The paths that the entries of a report stand for, in their order. -/
def Discovery.paths (d : Discovery) : List Path :=
  d.unreadable.map Prod.fst ++ d.files

/-- The entries of the report on what was found. -/
def Target.entries (target : Target) (t : FileTree) (dryRun : Bool) (d : Discovery) :
    List FileReport :=
  d.unreadable.map target.entryOfUnreadable ++ (turns dryRun d.files t).map (target.entryOf dryRun)

theorem map_fst_turns (dryRun : Bool) (paths : List Path) (t : FileTree) :
    (turns dryRun paths t).map Prod.fst = paths := by
  induction paths generalizing t with
  | nil => rfl
  | cons path paths ih => exact congrArg (path :: ·) (ih _)

theorem migrateFiles_eq (target : Target) (dryRun : Bool) (paths : List Path) (t : FileTree) :
    (migrateFiles target dryRun paths t).1 =
      (turns dryRun paths t).map (target.entryOf dryRun) := by
  induction paths generalizing t with
  | nil => rfl
  | cons path paths ih => exact congrArg (target.entryOf dryRun (path, t) :: ·) (ih _)

/-- What the report on a discovery says. -/
structure Tells (t : FileTree) (target : Target) (dryRun : Bool) (d : Discovery) (r : Report) :
    Prop where
  baseDir : r.baseDir = target.baseDir.display
  filesFound : r.filesFound = d.files.length
  files : r.files = target.entries t dryRun d
  balanced : r.Balanced

/-- **The report of a migration that was completed**, and that it is completed exactly if there is a
discovery. -/
theorem migrate_eq_ok_iff {t : FileTree} {target : Target} {dryRun : Bool} {r : Report} :
    (migrate t target dryRun).1 = .ok r ↔ ∃ d, target.discover t = .ok d ∧
      r = ((Report.start target.baseDir.display dryRun).found d.files.length).recordAll
        (target.entries t dryRun d) := by
  have happend : ∀ (r : Report) (xs ys : List FileReport),
      (r.recordAll xs).recordAll ys = r.recordAll (xs ++ ys) := fun r xs ys =>
    List.foldl_append.symm
  unfold migrate
  cases target.discover t with
  | error f => simp
  | ok d =>
    dsimp only
    rw [migrateFiles_eq, happend]
    constructor
    · intro h
      exact ⟨d, rfl, (Except.ok.inj h).symm⟩
    · rintro ⟨_, hd, rfl⟩
      cases hd
      rfl

/-- A migration fails exactly if there is no discovery, and for the same reason. -/
theorem migrate_eq_error_iff {t : FileTree} {target : Target} {dryRun : Bool} {f : Failure} :
    (migrate t target dryRun).1 = .error f ↔ target.discover t = .error f := by
  unfold migrate
  cases target.discover t with
  | error f' => simp
  | ok d => simp

theorem tells_report (t : FileTree) (target : Target) (dryRun : Bool) (d : Discovery) :
    Tells t target dryRun d (((Report.start target.baseDir.display dryRun).found
      d.files.length).recordAll (target.entries t dryRun d)) := by
  have hknown := Report.recordAll_known
    ((Report.start target.baseDir.display dryRun).found d.files.length) (target.entries t dryRun d)
  exact {
    baseDir := hknown.1
    filesFound := hknown.2.2
    files := Report.files_recordAll _ _
    balanced := ((Report.balanced_start _ _).found _).recordAll _ }

theorem migrate_of_discover {t : FileTree} {target : Target} {d : Discovery}
    (h : target.discover t = .ok d) (dryRun : Bool) :
    ∃ r, (migrate t target dryRun).1 = .ok r ∧ Tells t target dryRun d r :=
  ⟨_, migrate_eq_ok_iff.mpr ⟨d, h, rfl⟩, tells_report t target dryRun d⟩

theorem discover_of_migrate {t : FileTree} {target : Target} {dryRun : Bool} {r : Report}
    (h : (migrate t target dryRun).1 = .ok r) :
    ∃ d, target.discover t = .ok d ∧ Tells t target dryRun d r := by
  obtain ⟨d, hd, rfl⟩ := migrate_eq_ok_iff.mp h
  exact ⟨d, hd, tells_report t target dryRun d⟩

variable (target : Target) (t : FileTree) (dryRun : Bool) (d : Discovery)

/-- The entries of a report are named after the paths they stand for. -/
theorem map_file_entries :
    (target.entries t dryRun d).map FileReport.file = d.paths.map target.nameOf := by
  have hfiles : ((turns dryRun d.files t).map (target.entryOf dryRun)).map FileReport.file =
      d.files.map target.nameOf := by
    conv_rhs => rw [← map_fst_turns dryRun d.files t]
    rw [List.map_map, List.map_map]
    rfl
  rw [Target.entries, Discovery.paths, List.map_append, List.map_append, hfiles, List.map_map,
    List.map_map]
  rfl

/-- Each entry with the path it stands for. -/
theorem zip_entries :
    d.paths.zip (target.entries t dryRun d) =
      d.unreadable.map (fun u => (u.1, target.entryOfUnreadable u)) ++
        (turns dryRun d.files t).map fun turn => (turn.1, target.entryOf dryRun turn) := by
  have hfiles : d.files.zip ((turns dryRun d.files t).map (target.entryOf dryRun)) =
      (turns dryRun d.files t).map fun turn => (turn.1, target.entryOf dryRun turn) := by
    have hzip := @List.zip_map' _ _ _ Prod.fst (target.entryOf dryRun) (turns dryRun d.files t)
    rwa [map_fst_turns] at hzip
  rw [Discovery.paths, Target.entries, List.zip_append, List.zip_map', hfiles]
  rw [List.length_map, List.length_map]

end WidgetMigration
