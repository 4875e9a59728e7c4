import WidgetMigration.Report.Basic

/-!
# The report as data

The form of a report that programs read. The status of an entry decides which members it has.
-/

namespace WidgetMigration

/-- A rule hit as JSON. -/
def RuleHit.toJson (h : RuleHit) : Json :=
  .object [("rule", .string h.rule), ("count", .nat h.count)]

/-- The name and the description of a rule as JSON. -/
def Rule.toJson (r : Rule) : Json :=
  .object [("id", .string r.id), ("description", .string r.description)]

/-- The members that tell what became of a file. -/
def FileOutcome.members : FileOutcome → List (String × Json)
  | .modified changes rules =>
    [("status", .string "modified"), ("changes", .nat changes),
      ("rules", .array (rules.map RuleHit.toJson))]
  | .unchanged => [("status", .string "unchanged")]
  | .failed error => [("status", .string "failed"), ("error", .string error)]

/-- An entry of a report as JSON. -/
def FileReport.toJson (f : FileReport) : Json :=
  .object (("file", .string f.file) :: f.outcome.members)

/-- A report as JSON. -/
def Report.toJson (r : Report) : Json :=
  .object
    [("baseDir", .string r.baseDir),
     ("dryRun", .bool r.dryRun),
     ("filesFound", .nat r.filesFound),
     ("filesModified", .nat r.filesModified),
     ("filesFailed", .nat r.filesFailed),
     ("totalChanges", .nat r.totalChanges),
     ("files", .array (r.files.map FileReport.toJson)),
     ("rules", .array (Rule.all.map Rule.toJson)),
     ("manualFollowups", .strings Report.manualFollowups)]

end WidgetMigration
