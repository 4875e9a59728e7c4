import WidgetMigration.Migration.Discovery
import WidgetMigration.Report.Basic
import WidgetMigration.Tree.Access

/-!
# Running a migration

Files are changed one at a time, and each function here says what a tree looks like afterwards. A
file is written only if its text changed. A file that cannot be read or written is recorded in the
report, and the migration goes on with the next one. In a dry run nothing is written.
-/

namespace WidgetMigration

/-- Reads a text. `operation` tells what for, should it fail. -/
def readText (t : FileTree) (path : Path) (operation : String) : Except Failure String :=
  match t.read path with
  | .ok text => .ok text
  | .error e => .error (.io e.message operation)

/-- Writes a text. `operation` tells what for, should it fail. -/
def writeText (t : FileTree) (path : Path) (text operation : String) : Except Failure FileTree :=
  match t.write? path text with
  | .ok t => .ok t
  | .error e => .error (.io e.message operation)

/-- What the rules did to a file. The text may be the same although rules applied. -/
structure FileChange where
  changes : Nat
  rules : List RuleHit
  modified : Bool
  deriving DecidableEq, Repr

namespace FileChange

/-- What became of a file with a change. -/
def outcome (c : FileChange) : FileOutcome :=
  if c.modified then .modified c.changes c.rules else .unchanged

end FileChange

/-- Applies the rules to a file. -/
def migrateFile (t : FileTree) (dryRun : Bool) (path : Path) :
    Except Failure FileChange × FileTree :=
  match readText t path ("read " ++ path.display) with
  | .error f => (.error f, t)
  | .ok text =>
    let o := applyAll text
    if o.content = text then (.ok ⟨o.total, o.hits, false⟩, t)
    else if dryRun then (.ok ⟨o.total, o.hits, true⟩, t)
    else
      match writeText t path o.content ("write " ++ path.display) with
      | .error f => (.error f, t)
      | .ok t => (.ok ⟨o.total, o.hits, true⟩, t)

/-- What the report says about a file. -/
def FileOutcome.ofResult : Except Failure FileChange → FileOutcome
  | .ok change => change.outcome
  | .error f => .failed f.message

/-- The name of a file or directory in the report of a target. -/
def Target.nameOf (target : Target) (path : Path) : String :=
  (Path.relativeTo target.root path).display

/-- Applies the rules to files, one after the other. -/
def migrateFiles (target : Target) (dryRun : Bool) :
    List Path → FileTree → List FileReport × FileTree
  | [], t => ([], t)
  | path :: paths, t =>
    let here := migrateFile t dryRun path
    let later := migrateFiles target dryRun paths here.2
    (⟨target.nameOf path, FileOutcome.ofResult here.1⟩ :: later.1, later.2)

/-- The entries for the directories that could not be listed. -/
def unreadableReports (target : Target) (unreadable : List (Path × Failure)) : List FileReport :=
  unreadable.map fun d => ⟨target.nameOf d.1, .failed d.2.message⟩

/-- Migrates the files of a target. -/
def migrate (t : FileTree) (target : Target) (dryRun : Bool) : Except Failure Report × FileTree :=
  match target.discover t with
  | .error f => (.error f, t)
  | .ok discovery =>
    let found := (Report.start target.baseDir.display dryRun).found discovery.files.length
    let listed := found.recordAll (unreadableReports target discovery.unreadable)
    let r := migrateFiles target dryRun discovery.files t
    (.ok (listed.recordAll r.1), r.2)

end WidgetMigration
