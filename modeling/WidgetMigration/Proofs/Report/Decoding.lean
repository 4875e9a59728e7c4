import WidgetMigration.Report.Data
import WidgetMigration.Proofs.Json.RoundTrip

/-!
# The report is recovered from its data

A reader of the data knows the members by their keys and the status of an entry by its name. What it
reads from the data of a report is that report: no key stands for two things, also where the members
of an outcome share an object with the name of the file.

The data of a report also list the rules and what is left to be done by hand. The lists are the same
for every migration, but they are read from the data like everything else.
-/

namespace WidgetMigration

/-! ## Values without fractions -/

namespace Json

attribute [simp] Whole.null Whole.bool Whole.int Whole.string Whole.strings

@[simp]
theorem whole_array_iff {items : List Json} : Whole (.array items) ↔ ∀ v ∈ items, Whole v :=
  ⟨fun h => by cases h with | array h => exact h, .array⟩

@[simp]
theorem whole_object_iff {members : List (String × Json)} :
    Whole (.object members) ↔ ∀ m ∈ members, Whole m.2 :=
  ⟨fun h => by cases h with | object h => exact h, .object⟩

@[simp]
theorem Whole.nat (n : Nat) : Whole (nat n) := .int n

/-! ## Reading single values -/

/-- The text that a value is. -/
def text? : Json → Option String
  | .string s => some s
  | _ => none

/-- The truth value that a value is. -/
def flag? : Json → Option Bool
  | .bool b => some b
  | _ => none

/-- The count that a value is. -/
def count? : Json → Option Nat
  | .int (.ofNat n) => some n
  | _ => none

/-- The items of an array, each read by the same reader. -/
def listOf? {α : Type} (item : Json → Option α) : Json → Option (List α)
  | .array items => items.mapM item
  | _ => none

@[simp] theorem text?_string (s : String) : text? (.string s) = some s := rfl

@[simp] theorem flag?_bool (b : Bool) : flag? (.bool b) = some b := rfl

@[simp] theorem count?_nat (n : Nat) : count? (nat n) = some n := rfl

/-- A list is read back if the reader of its items undoes how they are written. -/
theorem listOf?_array_map {α : Type} {write : α → Json} {item : Json → Option α}
    (h : ∀ a, item (write a) = some a) (as : List α) :
    listOf? item (.array (as.map write)) = some as := by
  induction as with
  | nil => rfl
  | cons a as ih =>
    simp only [listOf?] at ih
    simp [listOf?, h, ih]

@[simp]
theorem listOf?_strings (texts : List String) : listOf? text? (strings texts) = some texts :=
  listOf?_array_map text?_string texts

end Json

open Json

/-! ## Reading a report -/

namespace RuleHit

@[simp]
theorem whole_toJson (h : RuleHit) : Whole h.toJson := by
  simp [toJson]

/-- Reads a rule hit. -/
def ofJson? (v : Json) : Option RuleHit := do
  let rule ← (← v.member? "rule").text?
  let count ← (← v.member? "count").count?
  some ⟨rule, count⟩

@[simp]
theorem ofJson?_toJson (h : RuleHit) : ofJson? h.toJson = some h := by
  simp [ofJson?, toJson, member?, List.lookup_cons]

end RuleHit

namespace FileReport

@[simp]
theorem whole_toJson (f : FileReport) : Whole f.toJson := by
  obtain ⟨file, outcome⟩ := f
  cases outcome <;> simp [toJson, FileOutcome.members]

/-- Reads what became of a file from the members of its entry. -/
def outcomeOf? (v : Json) : Option FileOutcome := do
  let status ← (← v.member? "status").text?
  if status = "modified" then
    let changes ← (← v.member? "changes").count?
    let rules ← listOf? RuleHit.ofJson? (← v.member? "rules")
    some (.modified changes rules)
  else if status = "unchanged" then some .unchanged
  else if status = "failed" then
    let error ← (← v.member? "error").text?
    some (.failed error)
  else none

/-- Reads an entry of a report. -/
def ofJson? (v : Json) : Option FileReport := do
  let file ← (← v.member? "file").text?
  let outcome ← outcomeOf? v
  some ⟨file, outcome⟩

/-- The file shares its object with the members of the outcome, whose keys are others. -/
@[simp]
theorem outcomeOf?_toJson (f : FileReport) : outcomeOf? f.toJson = some f.outcome := by
  obtain ⟨file, outcome⟩ := f
  cases outcome with
  | modified changes rules =>
    have hrules := listOf?_array_map RuleHit.ofJson?_toJson rules
    simp [outcomeOf?, toJson, FileOutcome.members, member?, List.lookup_cons, hrules]
  | unchanged => simp [outcomeOf?, toJson, FileOutcome.members, member?, List.lookup_cons]
  | failed error => simp [outcomeOf?, toJson, FileOutcome.members, member?, List.lookup_cons]

@[simp]
theorem ofJson?_toJson (f : FileReport) : ofJson? f.toJson = some f := by
  have hfile : f.toJson.member? "file" = some (.string f.file) := by
    simp [toJson, member?]
  simp [ofJson?, hfile]

end FileReport

/-- The name and the description of a rule. -/
structure RuleInfo where
  id : String
  description : String
  deriving DecidableEq, Repr

namespace RuleInfo

/-- What the data of a report tell about a rule. -/
def of (r : Rule) : RuleInfo := ⟨r.id, r.description⟩

/-- The name and the description of a rule as JSON. -/
def toJson (r : RuleInfo) : Json :=
  .object [("id", .string r.id), ("description", .string r.description)]

@[simp]
theorem whole_toJson (r : RuleInfo) : Whole r.toJson := by
  simp [toJson]

/-- Reads the name and the description of a rule. -/
def ofJson? (v : Json) : Option RuleInfo := do
  let id ← (← v.member? "id").text?
  let description ← (← v.member? "description").text?
  some ⟨id, description⟩

@[simp]
theorem ofJson?_toJson (r : RuleInfo) : ofJson? r.toJson = some r := by
  simp [ofJson?, toJson, member?, List.lookup_cons]

end RuleInfo

/-- Everything that the data of a report hold: the report, and the lists that stand at their end. -/
structure FullReport where
  report : Report
  rules : List RuleInfo
  manualFollowups : List String
  deriving DecidableEq, Repr

namespace FullReport

/-- A report with the rules of the program and what it leaves to be done by hand. -/
def of (r : Report) : FullReport :=
  ⟨r, Rule.all.map RuleInfo.of, Report.manualFollowups⟩

/-- A report with any such lists as JSON. -/
def toJson (r : FullReport) : Json :=
  .object
    [("baseDir", .string r.report.baseDir),
     ("dryRun", .bool r.report.dryRun),
     ("filesFound", .nat r.report.filesFound),
     ("filesModified", .nat r.report.filesModified),
     ("filesFailed", .nat r.report.filesFailed),
     ("totalChanges", .nat r.report.totalChanges),
     ("files", .array (r.report.files.map FileReport.toJson)),
     ("rules", .array (r.rules.map RuleInfo.toJson)),
     ("manualFollowups", .strings r.manualFollowups)]

/-- A report with its lists says what the report says. -/
theorem toJson_of (r : Report) : (of r).toJson = r.toJson := rfl

@[simp]
theorem whole_toJson (r : FullReport) : Whole r.toJson := by
  simp [toJson]

/-- Reads a report with its lists. -/
def ofJson? (v : Json) : Option FullReport := do
  let baseDir ← (← v.member? "baseDir").text?
  let dryRun ← (← v.member? "dryRun").flag?
  let filesFound ← (← v.member? "filesFound").count?
  let filesModified ← (← v.member? "filesModified").count?
  let filesFailed ← (← v.member? "filesFailed").count?
  let totalChanges ← (← v.member? "totalChanges").count?
  let files ← listOf? FileReport.ofJson? (← v.member? "files")
  let rules ← listOf? RuleInfo.ofJson? (← v.member? "rules")
  let manualFollowups ← listOf? text? (← v.member? "manualFollowups")
  some ⟨⟨baseDir, dryRun, filesFound, filesModified, filesFailed, totalChanges, files⟩, rules,
    manualFollowups⟩

/-- The data of a report are read back as the report. -/
@[simp]
theorem ofJson?_toJson (r : FullReport) : ofJson? r.toJson = some r := by
  have hfiles := listOf?_array_map FileReport.ofJson?_toJson r.report.files
  have hrules := listOf?_array_map RuleInfo.ofJson?_toJson r.rules
  simp [ofJson?, toJson, member?, List.lookup_cons, hfiles, hrules]

end FullReport

end WidgetMigration
