import WidgetMigration.Command
import WidgetMigration.Proofs.Migration.Entries
import WidgetMigration.Proofs.Path.Texts
import WidgetMigration.Proofs.Wildcard.AnyBase
import WidgetMigration.Tree.Build

/-!
# How the command ends

There is a discovery for every target whose base directory is a text (`exists_discover`), so a
migration of a project is completed exactly if its root is a text (`migrateProject_of_isText`,
`migrate_of_not_isText`). What becomes of single files has no say in it, and neither has what
the tree holds. So the command has two ways to end (`command_exits`): it exits with 0 and prints a
report, or with 2 and changes nothing.
-/

namespace WidgetMigration

open Wildcard

/-! ## Discoveries -/

/-- **There is a discovery** for every base directory that is a text. -/
theorem exists_discover (t : FileTree) {target : Target} {base : String}
    (hbase : target.baseDir.toString? = some base) (h : IsPlain target.extension.toList) :
    ∃ d, target.discover t = .ok d := by
  obtain ⟨pattern, hpattern⟩ := exists_parse_pattern base h
  exact ⟨_, discover_eq_ok_iff.mpr ⟨base, pattern, hbase, hpattern, rfl⟩⟩

/-! ## Migrations of a project -/

namespace Command

variable (t : FileTree) {root : Path} (dryRun : Bool)

/-- A migration is completed if the root is a text. -/
theorem migrateProject_of_isText (h : root.IsText) :
    ∃ report after, migrate t (Target.forRoot root) dryRun = (.ok report, after) ∧
      migrateProject t root dryRun = (.ok (report, 0), after) := by
  obtain ⟨base, hbase⟩ := (Target.isText_baseDir_iff root).mpr h
  obtain ⟨d, hd⟩ := exists_discover t hbase isExtension_dart.isPlain
  obtain ⟨report, hreport, _⟩ := migrate_of_discover hd dryRun
  have hmigrate : migrate t (Target.forRoot root) dryRun =
      (.ok report, (migrate t (Target.forRoot root) dryRun).2) := by
    rw [← hreport]
  refine ⟨report, _, hmigrate, ?_⟩
  unfold migrateProject
  rw [hmigrate]
  rfl

/-- It fails as a whole if the root is none, and then it leaves the tree as it is. -/
theorem migrate_of_not_isText (h : ¬ root.IsText) :
    migrate t (Target.forRoot root) dryRun = (.error (Target.forRoot root).rootIsNotText, t) := by
  have hbase : (Target.forRoot root).baseDir.toString? = none :=
    Path.not_isText_iff.mp fun htext => h ((Target.isText_baseDir_iff root).mp htext)
  unfold migrate Target.discover
  rw [hbase]

/-! ## Endings -/

/-- How the command ends after a migration that was completed. -/
def completedEnding (json : Bool) (report : Report) : Ending :=
  ⟨0, if json then envelope (.ok (report, 0)) ++ "\n" else report.render, ""⟩

/-- How the command ends after a migration that failed because of an argument. -/
def refusedEnding (json : Bool) (f : Failure) : Ending :=
  ⟨2, if json then envelope (.error f) ++ "\n" else "", if json then "" else failureText f⟩

theorem ending_ok (json : Bool) (report : Report) :
    ending json (.ok (report, 0)) = completedEnding json report := by
  cases json <;> rfl

theorem ending_error (json : Bool) {f : Failure} (h : f.code = .invalidArgument) :
    ending json (.error f) = refusedEnding json f := by
  have hexit : clampExit (exitCode (.error f : Except Failure (Report × Int))) = 2 := by
    show clampExit f.code.exitCode = 2
    rw [h]
    rfl
  unfold ending
  rw [hexit]
  cases json <;> rfl

theorem execute_of_isText {o : Options} (h : o.root.IsText) :
    ∃ report after, migrate t (Target.forRoot o.root) o.dryRun = (.ok report, after) ∧
      execute t (.migrate o) = (completedEnding o.json report, after) := by
  obtain ⟨report, after, hmigrate, hproject⟩ := migrateProject_of_isText t o.dryRun h
  refine ⟨report, after, hmigrate, ?_⟩
  show (ending o.json (migrateProject t o.root o.dryRun).1, _) = _
  rw [hproject, ending_ok]

theorem execute_of_not_isText {o : Options} (h : ¬ o.root.IsText) :
    execute t (.migrate o) =
      (refusedEnding o.json (Target.forRoot o.root).rootIsNotText, t) := by
  show (ending o.json (migrateProject t o.root o.dryRun).1, _) = _
  unfold migrateProject
  rw [migrate_of_not_isText t o.dryRun h]
  exact congrArg (·, t) (ending_error o.json rfl)

/-- What was asked for is done with exit code 0 or 2. -/
theorem exit_execute (request : Request) :
    (execute t request).1.exit = 0 ∨ (execute t request).1.exit = 2 := by
  cases request with
  | version => exact .inl rfl
  | help => exact .inl rfl
  | migrate o =>
    by_cases h : o.root.IsText
    · obtain ⟨report, after, _, hexecute⟩ := execute_of_isText t h
      rw [hexecute]
      exact .inl rfl
    · rw [execute_of_not_isText t h]
      exact .inr rfl

theorem exit_run (arguments : List Bytes) :
    (run t arguments).1.exit = 0 ∨ (run t arguments).1.exit = 2 := by
  unfold run
  cases Request.ofArguments arguments with
  | error e => exact .inr rfl
  | ok request => exact exit_execute t request

/-- **How the command ends.** The pattern below a base directory that is a text can be read, so there
is a discovery. If the root is a text the command exits with 0 and prints the report of the
migration; otherwise it exits with 2, tells of the invalid argument and leaves the tree as it is. No
arguments lead to another exit code. -/
theorem command_exits :
    (∀ (t : FileTree) (target : Target) (base : String),
      target.baseDir.toString? = some base → IsPlain target.extension.toList →
        (∃ pattern, Pattern.parse (Target.pattern base target.extension) = .ok pattern) ∧
          ∃ d, target.discover t = .ok d) ∧
    (∀ (t : FileTree) (o : Options), o.root.IsText →
      ∃ report after, migrate t (Target.forRoot o.root) o.dryRun = (.ok report, after) ∧
        execute t (.migrate o) = (completedEnding o.json report, after)) ∧
    (∀ (t : FileTree) (o : Options), ¬ o.root.IsText →
      ∃ f : Failure, f.code.name = "validation.invalid_argument" ∧
        migrate t (Target.forRoot o.root) o.dryRun = (.error f, t) ∧
        execute t (.migrate o) = (refusedEnding o.json f, t)) ∧
    ∀ (t : FileTree) (arguments : List Bytes),
      (run t arguments).1.exit = 0 ∨ (run t arguments).1.exit = 2 := by
  refine ⟨fun t target base hbase h => ?_, fun t o h => execute_of_isText t h, fun t o h => ?_,
    exit_run⟩
  · exact ⟨exists_parse_pattern base h, exists_discover t hbase h⟩
  · exact ⟨_, rfl, migrate_of_not_isText t o.dryRun h, execute_of_not_isText t h⟩

/-- Brackets, stars and slashes in the base directory, a slash in the extension, and two roots, one of
which is a text. -/
theorem command_exits_brackets :
    let t := FileTree.atDirectory []
    let target : Target := ⟨Path.here, .ofString "[!]]**/?[//", "d/]rt"⟩
    let text : Options := ⟨.ofString "a[!*", false, true⟩
    let noText : Options := ⟨⟨[0x61, 0xFF]⟩, false, false⟩
    (target.baseDir.toString? = some "[!]]**/?[//" ∧ IsPlain target.extension.toList ∧
      ∃ d, target.discover t = .ok d) ∧
    (text.root.IsText ∧ ∃ report after,
      execute t (.migrate text) = (completedEnding true report, after)) ∧
    (¬ noText.root.IsText ∧ ∃ f : Failure, f.code.name = "validation.invalid_argument" ∧
      execute t (.migrate noText) = (refusedEnding false f, t)) := by
  intro t target text noText
  obtain ⟨hdiscover, hcompleted, hrefused, _⟩ := command_exits
  have hplain : IsPlain target.extension.toList := by
    intro c hc
    change c ∈ "d/]rt".toList at hc
    have hcases : c ∈ ['d', '/', ']', 'r', 't'] := hc
    simp only [List.mem_cons, List.not_mem_nil, or_false] at hcases
    rcases hcases with rfl | rfl | rfl | rfl | rfl <;> decide
  have hbase : target.baseDir.toString? = some "[!]]**/?[//" := Utf8.decode?_encode _
  have hnoText : ¬ noText.root.IsText := Path.not_isText_iff.mpr (by decide +kernel)
  obtain ⟨report, after, _, hexecute⟩ := hcompleted t text (Path.isText_ofString _)
  obtain ⟨f, hname, _, hexecute'⟩ := hrefused t noText hnoText
  exact ⟨⟨hbase, hplain, (hdiscover t target _ hbase hplain).2⟩,
    ⟨Path.isText_ofString _, report, after, hexecute⟩, hnoText, f, hname, hexecute'⟩

end Command

end WidgetMigration
