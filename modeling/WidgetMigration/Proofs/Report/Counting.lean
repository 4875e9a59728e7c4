import Mathlib
import WidgetMigration.Report.Basic

/-!
# The numbers of a report

A report is balanced if its numbers are those of its entries. A report begins balanced, recording an
entry keeps it so (`Balanced.record`), and by induction so does recording many (`Balanced.recordAll`).
What is known beforehand stays as it is.
-/

namespace WidgetMigration.Report

/-- The numbers of a report are those of its entries. -/
structure Balanced (r : Report) : Prop where
  filesModified : r.filesModified = r.files.countP fun f => f.outcome.isModified
  filesFailed : r.filesFailed = r.files.countP fun f => f.outcome.isFailed
  totalChanges : r.totalChanges = (r.files.map fun f => f.outcome.changes).sum

theorem balanced_start (baseDir : String) (dryRun : Bool) : (start baseDir dryRun).Balanced :=
  ⟨rfl, rfl, rfl⟩

theorem Balanced.found {r : Report} (h : r.Balanced) (count : Nat) : (r.found count).Balanced :=
  ⟨h.filesModified, h.filesFailed, h.totalChanges⟩

/-- **Recording an entry counts it.** -/
theorem Balanced.record {r : Report} (h : r.Balanced) (file : String) (outcome : FileOutcome) :
    (r.record file outcome).Balanced := by
  obtain ⟨hmodified, hfailed, hchanges⟩ := h
  cases outcome <;> constructor <;>
    simp [Report.record, FileOutcome.isModified, FileOutcome.isFailed, FileOutcome.changes,
      hmodified, hfailed, hchanges]

theorem Balanced.recordAll {r : Report} (h : r.Balanced) (entries : List FileReport) :
    (r.recordAll entries).Balanced := by
  induction entries generalizing r with
  | nil => exact h
  | cons e entries ih => exact ih (h.record e.file e.outcome)

/-! ## What is recorded -/

theorem recordAll_cons (r : Report) (e : FileReport) (entries : List FileReport) :
    r.recordAll (e :: entries) = (r.record e.file e.outcome).recordAll entries := rfl

theorem files_record (r : Report) (file : String) (outcome : FileOutcome) :
    (r.record file outcome).files = r.files ++ [⟨file, outcome⟩] := by
  cases outcome <;> rfl

theorem files_recordAll (r : Report) (entries : List FileReport) :
    (r.recordAll entries).files = r.files ++ entries := by
  induction entries generalizing r with
  | nil => exact (List.append_nil r.files).symm
  | cons e entries ih =>
    rw [recordAll_cons, ih, files_record, List.append_assoc]
    rfl

/-- Recording leaves what is known beforehand. -/
theorem recordAll_known (r : Report) (entries : List FileReport) :
    (r.recordAll entries).baseDir = r.baseDir ∧ (r.recordAll entries).dryRun = r.dryRun ∧
      (r.recordAll entries).filesFound = r.filesFound := by
  induction entries generalizing r with
  | nil => exact ⟨rfl, rfl, rfl⟩
  | cons e entries ih =>
    obtain ⟨hbase, hdry, hfound⟩ := ih (r.record e.file e.outcome)
    rw [recordAll_cons, hbase, hdry, hfound]
    cases e.outcome <;> exact ⟨rfl, rfl, rfl⟩

end WidgetMigration.Report
