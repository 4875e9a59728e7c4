import WidgetMigration.Proofs.Migration.Effect
import WidgetMigration.Proofs.Migration.Entries
import WidgetMigration.Proofs.Rule.Hits

/-!
# What a dry run foretells

A dry run leaves the tree as it is, while a migration in earnest writes file after file. If no two of
the paths that were discovered lead to one file, each file still is in its turn what it was at the
beginning (`entries_inEarnest`). So an entry of the dry run becomes an entry of the migration in
earnest, told by the tree at the beginning: only a file that is modified and may not be written fails
instead (`FileOutcome.inEarnest`). `dry_run_predicts` is the law of both reports.
-/

namespace WidgetMigration

open FileTree

/-- Whether a path leads to a file that may be written. -/
def FileTree.isWritable (t : FileTree) (p : Path) : Bool :=
  match t.lookup .follow p with
  | .ok (_, .file _ access) => access.write
  | _ => false

/-- What becomes in earnest of a path that has come to something in a dry run. -/
def FileOutcome.inEarnest (t : FileTree) (p : Path) : FileOutcome → FileOutcome
  | .modified changes hits =>
    if t.isWritable p then .modified changes hits
    else .failed (Failure.io FileError.permissionDenied.message ("write " ++ p.display)).message
  | .unchanged => .unchanged
  | .failed error => .failed error

/-- The entries of a dry run that are modified and cannot be written, with their paths. -/
def unwritten (t : FileTree) (entries : List (Path × FileReport)) : List (Path × FileReport) :=
  entries.filter fun x => x.2.outcome.isModified && !t.isWritable x.1

/-- The report of a dry run predicts the report of a migration in earnest. -/
structure Predicts (t : FileTree) (target : Target) (d : Discovery) (dry real : Report) : Prop where
  baseDir : real.baseDir = dry.baseDir
  filesFound : real.filesFound = dry.filesFound
  names : dry.files.map FileReport.file = d.paths.map target.nameOf
  names' : real.files.map FileReport.file = dry.files.map FileReport.file
  outcomes : real.files.map FileReport.outcome =
    (d.paths.zip dry.files).map fun x => x.2.outcome.inEarnest t x.1
  totalChanges : real.totalChanges +
    ((unwritten t (d.paths.zip dry.files)).map fun x => x.2.outcome.changes).sum = dry.totalChanges

/-! ## One file -/

section

variable {t : FileTree} {p q : Path} {loc : Location} {content : Bytes} {access : Access}

/-- **What becomes of a file in earnest**, told by its dry run. -/
theorem outcome_inEarnest (h : t.lookup .follow p = .ok (loc, .file content access)) :
    FileOutcome.ofResult (migrateFile t false p).1 =
      (FileOutcome.ofResult (migrateFile t true p).1).inEarnest t p := by
  obtain ⟨hres, hget⟩ := lookup_eq_ok_iff.mp h
  have hwritable : t.isWritable p = access.write := by
    unfold isWritable
    rw [h]
  unfold migrateFile writeText
  cases readText t p ("read " ++ p.display) with
  | error f => rfl
  | ok text =>
    by_cases hsame : (applyAll text).content = text
    · simp only [if_pos hsame]
      rfl
    simp only [if_neg hsame, write?_of_resolve hres hget, Bool.false_eq_true, if_false, if_true]
    show _ = FileOutcome.inEarnest t p (.modified _ _)
    rw [FileOutcome.inEarnest, hwritable]
    cases access.write <;> rfl

/-- A turn of a file leaves the others. -/
theorem lookup_migrateFile (h : t.lookup .follow p = .ok (loc, .file content access))
    (hne : t.resolve .follow q ≠ t.resolve .follow p) :
    (migrateFile t false p).2.lookup .follow q = t.lookup .follow q := by
  obtain ⟨hres, hget⟩ := lookup_eq_ok_iff.mp h
  rw [migrateFile_tree hres hget]
  unfold lookup
  rw [← (sameShape_mapFiles _ _).resolve]
  rcases hq : t.resolve .follow q with e | (loc' | ⟨directory, name⟩)
  · rfl
  · have hloc : loc' ≠ loc := by
      rintro rfl
      exact hne (hq.trans hres.symm)
    simp only [get?_mapFiles, if_neg hloc]
    rcases t.get? loc' with _ | (_ | _ | _) <;> rfl
  · rfl

end

/-! ## All files -/

theorem turns_dryRun (paths : List Path) (t : FileTree) :
    turns true paths t = paths.map fun p => (p, t) := by
  induction paths with
  | nil => rfl
  | cons p paths ih => rw [turns, migrateFile_dryRun, ih, List.map_cons]

/-- **The entries of the files in earnest**, told by the tree at the beginning. The turns before leave
each file that is still to come as it was. -/
theorem entries_inEarnest (target : Target) {t t' : FileTree} {paths : List Path}
    (hdistinct : paths.Pairwise fun p q => t.resolve .follow p ≠ t.resolve .follow q)
    (hfiles : ∀ p ∈ paths, t.isFile p = true)
    (hleft : ∀ p ∈ paths, t'.lookup .follow p = t.lookup .follow p) :
    (turns false paths t').map (target.entryOf false) = paths.map fun p =>
      ⟨target.nameOf p, (FileOutcome.ofResult (migrateFile t true p).1).inEarnest t p⟩ := by
  induction paths generalizing t' with
  | nil => rfl
  | cons p paths ih =>
    obtain ⟨hother, hdistinct⟩ := List.pairwise_cons.mp hdistinct
    obtain ⟨hfile, hfiles⟩ := List.forall_mem_cons.mp hfiles
    obtain ⟨hhere, hleft⟩ := List.forall_mem_cons.mp hleft
    obtain ⟨loc, content, access, hres, hget⟩ := isFile_iff.mp hfile
    have hlookup := lookup_eq_ok_iff.mpr ⟨hres, hget⟩
    have hlookup' := hhere.trans hlookup
    have hres' := (lookup_eq_ok_iff.mp hlookup').1
    -- None of the files that are still to come is the one that is written now.
    have hstill : ∀ q ∈ paths, (migrateFile t' false p).2.lookup .follow q = t.lookup .follow q := by
      intro q hq
      obtain ⟨_, _, _, hq₁, hq₂⟩ := isFile_iff.mp (hfiles q hq)
      have hq' := (lookup_eq_ok_iff.mp ((hleft q hq).trans (lookup_eq_ok_iff.mpr ⟨hq₁, hq₂⟩))).1
      refine (lookup_migrateFile hlookup' fun heq => hother q hq ?_).trans (hleft q hq)
      rw [hres, hq₁, ← hq', ← hres', heq]
    rw [turns, List.map_cons, List.map_cons, ih hdistinct hfiles hstill]
    congr 1
    show FileReport.mk _ (.ofResult (migrateFile t' false p).1) = _
    rw [migrateFile_result_congr false hlookup' hlookup, outcome_inEarnest hlookup]

/-! ## Both reports -/

/-- What is not changed in earnest is missing from the sum of the changes. -/
theorem sum_inEarnest (t : FileTree) (entries : List (Path × FileReport)) :
    (entries.map fun x => (x.2.outcome.inEarnest t x.1).changes).sum +
      ((unwritten t entries).map fun x => x.2.outcome.changes).sum =
        (entries.map fun x => x.2.outcome.changes).sum := by
  induction entries with
  | nil => rfl
  | cons x entries ih =>
    have hhere : (x.2.outcome.inEarnest t x.1).changes +
        (if (x.2.outcome.isModified && !t.isWritable x.1) = true then x.2.outcome.changes else 0) =
          x.2.outcome.changes := by
      cases x.2.outcome with
      | modified changes hits =>
        cases hwritable : t.isWritable x.1 <;>
          simp [FileOutcome.inEarnest, FileOutcome.isModified, FileOutcome.changes, hwritable]
      | unchanged => rfl
      | failed error => rfl
    simp only [unwritten, List.map_cons, List.sum_cons, List.filter_cons] at ih ⊢
    split at hhere
    · rename_i hunwritten
      rw [if_pos hunwritten, List.map_cons, List.sum_cons]
      omega
    · rename_i hwritten
      rw [if_neg hwritten]
      omega

section

variable {t : FileTree} {target : Target} {d : Discovery}

/-- The outcomes in earnest, told by the entries of the dry run. -/
theorem outcomes_inEarnest (hd : target.discover t = .ok d)
    (hdistinct : d.files.Pairwise fun p q => t.resolve .follow p ≠ t.resolve .follow q) :
    (target.entries t false d).map FileReport.outcome =
      (d.paths.zip (target.entries t true d)).map fun x => x.2.outcome.inEarnest t x.1 := by
  have hfiles := entries_inEarnest target hdistinct (fun p hp => isFile_of_mem_discover hd hp)
    fun p _ => rfl
  rw [zip_entries, Target.entries, turns_dryRun, hfiles]
  simp only [List.map_append, List.map_map]
  rfl

theorem Tells.predicts (hd : target.discover t = .ok d)
    (hdistinct : d.files.Pairwise fun p q => t.resolve .follow p ≠ t.resolve .follow q)
    {dry real : Report} (hdry : Tells t target true d dry) (hreal : Tells t target false d real) :
    Predicts t target d dry real := by
  have houtcomes : real.files.map FileReport.outcome =
      (d.paths.zip dry.files).map fun x => x.2.outcome.inEarnest t x.1 := by
    rw [hreal.files, hdry.files, outcomes_inEarnest hd hdistinct]
  have hlength : dry.files.length = d.paths.length := by
    rw [← List.length_map FileReport.file, hdry.files, map_file_entries, List.length_map]
  have hchanges : real.files.map (fun f => f.outcome.changes) =
      (d.paths.zip dry.files).map fun x => (x.2.outcome.inEarnest t x.1).changes := by
    have hmap := congrArg (List.map FileOutcome.changes) houtcomes
    rwa [List.map_map, List.map_map] at hmap
  have hchanges' : dry.files.map (fun f => f.outcome.changes) =
      (d.paths.zip dry.files).map fun x => x.2.outcome.changes := by
    have hzip : (d.paths.zip dry.files).map Prod.snd = dry.files := List.map_snd_zip hlength.le
    conv_lhs => rw [← hzip]
    rw [List.map_map]
    rfl
  exact {
    baseDir := hreal.baseDir.trans hdry.baseDir.symm
    filesFound := hreal.filesFound.trans hdry.filesFound.symm
    names := by rw [hdry.files, map_file_entries]
    names' := by rw [hdry.files, hreal.files, map_file_entries, map_file_entries]
    outcomes := houtcomes
    totalChanges := by
      rw [hreal.balanced.totalChanges, hdry.balanced.totalChanges, hchanges, hchanges',
        sum_inEarnest] }

end

/-- **A dry run predicts the migration in earnest**, for every tree and every target for which no two
of the discovered paths lead to one file. -/
theorem dry_run_predicts (t : FileTree) (target : Target)
    (hdistinct : ∀ d, target.discover t = .ok d →
      d.files.Pairwise fun p q => t.resolve .follow p ≠ t.resolve .follow q) :
    (∃ f, (migrate t target true).1 = .error f ∧ (migrate t target false).1 = .error f) ∨
      ∃ d dry real, target.discover t = .ok d ∧ (migrate t target true).1 = .ok dry ∧
        (migrate t target false).1 = .ok real ∧ Predicts t target d dry real := by
  cases hd : target.discover t with
  | error f => exact .inl ⟨f, migrate_eq_error_iff.mpr hd, migrate_eq_error_iff.mpr hd⟩
  | ok d =>
    obtain ⟨dry, hdry, htells⟩ := migrate_of_discover hd true
    obtain ⟨real, hreal, htells'⟩ := migrate_of_discover hd false
    exact .inr ⟨d, dry, real, rfl, hdry, hreal, htells.predicts hd (hdistinct d hd) htells'⟩

/-! ## A file that cannot be written -/

namespace Sample

/-- The first of the two files can be read, but not written. -/
def readOnly : FileTree := pair (Utf8.encode "onPressed:") ⟨true, false, false⟩

theorem resolve_readOnly :
    readOnly.resolve .follow (.ofString "[d]/a.dart") = .ok (.entry [directoryName, fileName]) ∧
      readOnly.resolve .follow (.ofString "[d]/b.dart") =
        .ok (.entry [directoryName, linkName]) := by
  constructor <;> cbv

/-- What becomes of the text in both files. -/
def renamed : FileOutcome := .modified 1 [⟨"onpressed-rename", 1⟩]

theorem dryRun_readOnly {p : Path} (hread : readOnly.read p = .ok "onPressed:") :
    target.entryOf true (p, readOnly) = ⟨target.nameOf p, renamed⟩ := by
  obtain ⟨hcontent, htotal, hhits⟩ := applyAll_onPressed
  have hne : "onPress:" ≠ "onPressed:" := by decide
  simp only [Target.entryOf, migrateFile, readText, hread, hcontent, if_neg hne, if_true, htotal,
    hhits]
  rfl

/-- The two files do not get in each other's way, so the dry run predicts what becomes of them: the
first one fails in earnest. -/
theorem dry_run_predicts_readOnly :
    ∃ d dry real, target.discover readOnly = .ok d ∧ (migrate readOnly target true).1 = .ok dry ∧
      (migrate readOnly target false).1 = .ok real ∧ Predicts readOnly target d dry real ∧
      dry.files.map FileReport.outcome = [renamed, renamed] ∧
      real.files.map FileReport.outcome =
        [.failed "IO error (write [d]/a.dart): Permission denied (os error 13)", renamed] := by
  obtain ⟨hfirst, hsecond⟩ := resolve_readOnly
  have hdiscover : target.discover readOnly =
      .ok ⟨[.ofString "[d]/a.dart", .ofString "[d]/b.dart"], []⟩ := discover_pair _ _
  have hpredicts := dry_run_predicts readOnly target fun d hd => by
    rw [hdiscover] at hd
    cases hd
    rw [List.pairwise_pair, hfirst, hsecond]
    decide
  rcases hpredicts with ⟨f, hf, _⟩ | ⟨d, dry, real, hd, hdry, hreal, hpredicts⟩
  · rw [migrate_eq_error_iff, hdiscover] at hf
    cases hf
  · obtain ⟨d', hd', htells⟩ := discover_of_migrate hdry
    cases hd.symm.trans hd'
    cases hdiscover.symm.trans hd
    have hread : readOnly.read (.ofString "[d]/a.dart") = .ok "onPressed:" := by cbv
    have hread' : readOnly.read (.ofString "[d]/b.dart") = .ok "onPressed:" := by cbv
    have hfiles := htells.files
    rw [Target.entries, turns_dryRun] at hfiles
    simp only [List.map_cons, List.map_nil, List.nil_append, dryRun_readOnly hread,
      dryRun_readOnly hread'] at hfiles
    refine ⟨_, dry, real, hd, hdry, hreal, hpredicts, ?_, ?_⟩
    · rw [hfiles]
      rfl
    · have hlocked : readOnly.isWritable (.ofString "[d]/a.dart") = false := by cbv
      have hwritable : readOnly.isWritable (.ofString "[d]/b.dart") = true := by cbv
      rw [hpredicts.outcomes, hfiles]
      simp only [Discovery.paths, List.map_nil, List.nil_append, List.zip_cons_cons,
        List.zip_nil_right, List.map_cons, renamed, FileOutcome.inEarnest, hlocked, hwritable,
        Bool.false_eq_true, if_false, if_true]
      decide +kernel

end Sample

end WidgetMigration
