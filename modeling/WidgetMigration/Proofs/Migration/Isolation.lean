import WidgetMigration.Proofs.Migration.Effect
import WidgetMigration.Proofs.Migration.Entries
import WidgetMigration.Proofs.Wildcard.SameShape

/-!
# Files do not influence each other

Two migrations of trees that differ in a single file, in its bytes or in who may use it (`DifferAt`).
They find the same, as a walk does not look into files. Then they take their turns side by side: before
each turn the two trees differ at most in this file, whatever becomes of it in its own turns. So every
turn of another file ends alike in both. `migrate_isolated` says so of whole migrations.
-/

namespace WidgetMigration

open FileTree

/-- The two trees differ at most in the bytes of one file and in who may use it. -/
structure DifferAt (f : Location) (t t' : FileTree) : Prop where
  workingDirectory : t.workingDirectory = t'.workingDirectory
  isFile : ∃ content access, t.get? f = some (.file content access)
  isFile' : ∃ content access, t'.get? f = some (.file content access)
  elsewhere : ∀ loc, loc ≠ f → t.get? loc = t'.get? loc

namespace DifferAt

variable {f : Location} {t t' : FileTree}

theorem sameShape (h : DifferAt f t t') : SameShape t t' where
  workingDirectory := h.workingDirectory
  get? loc := by
    by_cases hloc : loc = f
    · subst hloc
      obtain ⟨_, _, hget⟩ := h.isFile
      obtain ⟨_, _, hget'⟩ := h.isFile'
      rw [hget, hget']
      rfl
    · rw [h.elsewhere loc hloc]

theorem discover (h : DifferAt f t t') (target : Target) :
    target.discover t = target.discover t' := by
  have hwalk : t.matching = t'.matching := funext h.sameShape.matching
  have hfile : t.isFile = t'.isFile := funext h.sameShape.isFile
  simp only [Target.discover, Target.discoveryOf, hwalk, hfile]

/-- What is done to the files of both trees alike leaves them alike. -/
theorem mapFiles (h : DifferAt f t t') (g : Location → Bytes → Access → Bytes) :
    DifferAt f (t.mapFiles g) (t'.mapFiles g) where
  workingDirectory := h.workingDirectory
  isFile := by
    obtain ⟨content, access, hget⟩ := h.isFile
    exact ⟨_, access, by rw [get?_mapFiles, hget]; rfl⟩
  isFile' := by
    obtain ⟨content, access, hget⟩ := h.isFile'
    exact ⟨_, access, by rw [get?_mapFiles, hget]; rfl⟩
  elsewhere loc hloc := by rw [get?_mapFiles, get?_mapFiles, h.elsewhere loc hloc]

/-! ## One turn -/

variable {p : Path}

/-- After its turn a file may be another one, but the trees differ at most where they did. -/
theorem migrateFile_tree (h : DifferAt f t t') (dryRun : Bool) (hfile : t.isFile p = true) :
    DifferAt f (migrateFile t dryRun p).2 (migrateFile t' dryRun p).2 := by
  cases dryRun with
  | true => rwa [migrateFile_dryRun, migrateFile_dryRun]
  | false =>
    obtain ⟨loc, content, access, hres, hget⟩ := isFile_iff.mp hfile
    obtain ⟨loc', content', access', hres', hget'⟩ :=
      isFile_iff.mp ((h.sameShape.isFile p).symm.trans hfile)
    have hloc : loc' = loc := by
      have heq := (h.sameShape.resolve .follow p).symm.trans hres
      rw [hres'] at heq
      cases heq
      rfl
    subst hloc
    rw [WidgetMigration.migrateFile_tree hres hget, WidgetMigration.migrateFile_tree hres' hget']
    exact h.mapFiles _

/-- **The turn of another file ends alike.** -/
theorem migrateFile_result (h : DifferAt f t t') (dryRun : Bool) (hfile : t.isFile p = true)
    (hother : t.resolve .follow p ≠ .ok (.entry f)) :
    (migrateFile t dryRun p).1 = (migrateFile t' dryRun p).1 := by
  obtain ⟨loc, content, access, hres, hget⟩ := isFile_iff.mp hfile
  have hloc : loc ≠ f := by
    rintro rfl
    exact hother hres
  have hres' := (h.sameShape.resolve .follow p).symm.trans hres
  have hget' := (h.elsewhere loc hloc).symm.trans hget
  exact migrateFile_result_congr dryRun (lookup_eq_ok_iff.mpr ⟨hres, hget⟩)
    (lookup_eq_ok_iff.mpr ⟨hres', hget'⟩)

end DifferAt

/-- The turn of a file leaves the shape of the tree. -/
theorem sameShape_migrateFile {t : FileTree} {p : Path} (hfile : t.isFile p = true) (dryRun : Bool) :
    SameShape t (migrateFile t dryRun p).2 := by
  cases dryRun with
  | true =>
    rw [migrateFile_dryRun]
    exact ⟨rfl, fun _ => rfl⟩
  | false =>
    obtain ⟨loc, content, access, hres, hget⟩ := isFile_iff.mp hfile
    rw [migrateFile_tree hres hget]
    exact sameShape_mapFiles _ _

/-! ## All turns -/

/-- Two lists of entries, each with the path it stands for, tell the same of every path but those that
lead to a location. -/
def AgreeOff (f : Location) (t : FileTree) :
    List (Path × FileReport) → List (Path × FileReport) → Prop :=
  List.Forall₂ fun x x' => x.1 = x'.1 ∧ (t.resolve .follow x.1 ≠ .ok (.entry f) → x.2 = x'.2)

variable {f : Location} {t t' : FileTree} {paths : List Path}

/-- **The turns of files agree** on every path but those that lead to the one file. -/
theorem DifferAt.agreeOff_turns (h : DifferAt f t t') (target : Target) (dryRun : Bool)
    (hfiles : ∀ p ∈ paths, t.isFile p = true) :
    AgreeOff f t
      ((turns dryRun paths t).map fun turn => (turn.1, target.entryOf dryRun turn))
      ((turns dryRun paths t').map fun turn => (turn.1, target.entryOf dryRun turn)) := by
  induction paths generalizing t t' with
  | nil => exact .nil
  | cons p paths ih =>
    obtain ⟨hfile, hlater⟩ := List.forall_mem_cons.mp hfiles
    have hshape := sameShape_migrateFile hfile dryRun
    -- Behind this turn there are two other trees, and paths lead where they led in the first one.
    have hrest := ih (h.migrateFile_tree dryRun hfile) fun q hq =>
      (hshape.isFile q).symm.trans (hlater q hq)
    refine .cons ⟨rfl, fun hother => ?_⟩ (hrest.imp fun x x' hx => ⟨hx.1, fun hother => hx.2 ?_⟩)
    · show FileReport.mk _ (.ofResult (migrateFile t dryRun p).1) = _
      rw [h.migrateFile_result dryRun hfile hother]
      rfl
    · rwa [← hshape.resolve]

theorem DifferAt.migrateFiles_tree (h : DifferAt f t t') (target : Target) (dryRun : Bool)
    (hfiles : ∀ p ∈ paths, t.isFile p = true) :
    DifferAt f (migrateFiles target dryRun paths t).2 (migrateFiles target dryRun paths t').2 := by
  induction paths generalizing t t' with
  | nil => exact h
  | cons p paths ih =>
    obtain ⟨hfile, hlater⟩ := List.forall_mem_cons.mp hfiles
    have hshape := sameShape_migrateFile hfile dryRun
    exact ih (h.migrateFile_tree dryRun hfile) fun q hq =>
      (hshape.isFile q).symm.trans (hlater q hq)

/-! ## Whole migrations -/

/-- Two reports on the same discovery are isolated from a file: they name the same paths in the same
order, and tell the same of every path that does not lead to the file. -/
structure Isolated (f : Location) (t : FileTree) (target : Target) (d : Discovery) (r r' : Report) :
    Prop where
  names : r.files.map FileReport.file = d.paths.map target.nameOf
  names' : r'.files.map FileReport.file = d.paths.map target.nameOf
  entries : AgreeOff f t (d.paths.zip r.files) (d.paths.zip r'.files)

/-- **A file influences no other file**: if two trees differ in one file, migrating them fails for the
same reason, or the two reports agree on every path that does not lead to this file, and afterwards
the trees differ in no other file. -/
theorem migrate_isolated (h : DifferAt f t t') (target : Target) (dryRun : Bool) :
    ((∃ e, (migrate t target dryRun).1 = .error e ∧ (migrate t' target dryRun).1 = .error e) ∨
      ∃ d r r', target.discover t = .ok d ∧ (migrate t target dryRun).1 = .ok r ∧
        (migrate t' target dryRun).1 = .ok r' ∧ Isolated f t target d r r') ∧
    DifferAt f (migrate t target dryRun).2 (migrate t' target dryRun).2 := by
  have hdiscover := h.discover target
  cases hd : target.discover t with
  | error e =>
    rw [hd] at hdiscover
    refine ⟨.inl ⟨e, migrate_eq_error_iff.mpr hd, migrate_eq_error_iff.mpr hdiscover.symm⟩, ?_⟩
    unfold migrate
    rw [hd, ← hdiscover]
    exact h
  | ok d =>
    rw [hd] at hdiscover
    obtain ⟨r, hr, htells⟩ := migrate_of_discover hd dryRun
    obtain ⟨r', hr', htells'⟩ := migrate_of_discover hdiscover.symm dryRun
    have hfiles : ∀ p ∈ d.files, t.isFile p = true := fun p hp => isFile_of_mem_discover hd hp
    refine ⟨.inr ⟨d, r, r', rfl, hr, hr', ?_, ?_, ?_⟩, ?_⟩
    · rw [htells.files, map_file_entries]
    · rw [htells'.files, map_file_entries]
    · rw [htells.files, htells'.files, zip_entries, zip_entries]
      refine List.rel_append ?_ (h.agreeOff_turns target dryRun hfiles)
      exact List.forall₂_same.mpr fun _ _ => ⟨rfl, fun _ => rfl⟩
    · unfold migrate
      rw [hd, ← hdiscover]
      exact h.migrateFiles_tree target dryRun hfiles

/-! ## Two files -/

namespace Sample

theorem differAt_pair (content content' : Bytes) (access access' : Access) :
    DifferAt [directoryName, fileName] (pair content access) (pair content' access') where
  workingDirectory := rfl
  isFile := ⟨content, access, rfl⟩
  isFile' := ⟨content', access', rfl⟩
  elsewhere loc hloc := by
    cases loc with
    | nil => rfl
    | cons name loc =>
      show (pair content access).entries.lookup _ = (pair content' access').entries.lookup _
      simp only [pair, List.lookup_cons, beq_eq_false_iff_ne.mpr hloc]

/-- The first file is broken and locked: the second one is found and migrated as ever. -/
theorem migrate_isolated_pair :
    ∃ d r r', target.discover (pair (Utf8.encode "onPressed:") .full) = .ok d ∧
      d.files = [.ofString "[d]/a.dart", .ofString "[d]/b.dart"] ∧
      (migrate (pair (Utf8.encode "onPressed:") .full) target false).1 = .ok r ∧
      (migrate (pair [0xFF] ⟨false, true, true⟩) target false).1 = .ok r' ∧
      Isolated [directoryName, fileName] (pair (Utf8.encode "onPressed:") .full) target d r r' ∧
      (migrate (pair (Utf8.encode "onPressed:") .full) target false).2.get?
          [directoryName, linkName] =
        (migrate (pair [0xFF] ⟨false, true, true⟩) target false).2.get?
          [directoryName, linkName] := by
  have hdiffer := differAt_pair (Utf8.encode "onPressed:") [0xFF] .full ⟨false, true, true⟩
  have hdiscover := discover_pair (Utf8.encode "onPressed:") .full
  obtain ⟨⟨e, he, _⟩ | ⟨d, r, r', hd, hr, hr', hisolated⟩, hafter⟩ :=
    migrate_isolated hdiffer target false
  · rw [migrate_eq_error_iff, hdiscover] at he
    cases he
  · refine ⟨d, r, r', hd, ?_, hr, hr', hisolated, hafter.elsewhere _ (by decide)⟩
    cases hdiscover.symm.trans hd
    rfl

end Sample

end WidgetMigration
