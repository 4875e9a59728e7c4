import WidgetMigration.Rule.Chain
import WidgetMigration.Json.Value

/-!
# The report of a migration

What became of each file, in the order in which the files were looked at, and how many files were
modified, failed and changed in how many places. A report is filled entry by entry, and the numbers
are counted on the way. The number of files that were found is told beforehand: an entry may also
stand for a directory that could not be listed.
-/

namespace WidgetMigration

/-- What became of a file. -/
inductive FileOutcome where
  | modified (changes : Nat) (rules : List RuleHit)
  | unchanged
  | failed (error : String)
  deriving DecidableEq, Repr

namespace FileOutcome

/-- Whether the file was modified. -/
def isModified : FileOutcome → Bool
  | .modified .. => true
  | _ => false

/-- Whether something went wrong. -/
def isFailed : FileOutcome → Bool
  | .failed _ => true
  | _ => false

/-- The number of changes. -/
def changes : FileOutcome → Nat
  | .modified changes _ => changes
  | _ => 0

end FileOutcome

/-- An entry of a report: a file and what became of it. -/
structure FileReport where
  file : String
  outcome : FileOutcome
  deriving DecidableEq, Repr

/-- The report of a migration. -/
structure Report where
  baseDir : String
  dryRun : Bool
  filesFound : Nat
  filesModified : Nat
  filesFailed : Nat
  totalChanges : Nat
  files : List FileReport
  deriving DecidableEq, Repr

namespace Report

/-- A report before any file was looked at. -/
def start (baseDir : String) (dryRun : Bool) : Report :=
  ⟨baseDir, dryRun, 0, 0, 0, 0, []⟩

/-- Says how many files were found. -/
def found (r : Report) (count : Nat) : Report :=
  { r with filesFound := count }

/-- Adds an entry behind the others and counts it. -/
def record (r : Report) (file : String) (outcome : FileOutcome) : Report :=
  let files := r.files ++ [⟨file, outcome⟩]
  match outcome with
  | .modified changes _ =>
    { r with
      filesModified := r.filesModified + 1
      totalChanges := r.totalChanges + changes
      files := files }
  | .unchanged => { r with files := files }
  | .failed _ =>
    { r with
      filesFailed := r.filesFailed + 1
      files := files }

/-- Adds entries one after the other. -/
def recordAll (r : Report) (entries : List FileReport) : Report :=
  entries.foldl (fun r e => r.record e.file e.outcome) r

/-- What a migration leaves to be done by hand. -/
def manualFollowups : List String :=
  ["FCard(padding:...) → FCard.raw(child: Padding(...))",
   "Supprimer decoration: sur FTextField",
   "Vérifier FBadge text → label"]

/-- The command that checks the project after a migration. -/
def analyzeCommand : String := "flutter analyze"

end Report

end WidgetMigration
