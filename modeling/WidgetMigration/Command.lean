import WidgetMigration.CommandLine
import WidgetMigration.Envelope
import WidgetMigration.Migration.Run
import WidgetMigration.Report.Data
import WidgetMigration.Report.Text

/-!
# The command

What the program prints and changes for a request. A migration that was completed exits with 0, even
if some of its files failed; one that failed as a whole exits with the code of its failure. With
`--json` either is printed as an envelope on the standard output. Without it a report goes to the
standard output as text, and a failure to the standard error.
-/

namespace WidgetMigration

/-- What a program leaves when it ends. -/
structure Ending where
  exit : Nat
  stdout : String
  stderr : String
  deriving DecidableEq, Repr

namespace Command

/-- The name and the version of the program. -/
def versionText : String := "forui-migrate 0.15.0\n"

/-- Some lines, each with its line feed. -/
def linesText (lines : List String) : String :=
  String.join (lines.map (· ++ "\n"))

/-- What the program does and which options it has. -/
def helpText : String :=
  linesText
    ["Rewrite lib/features Dart sources for the ForUI 0.15 API",
     "",
     "Usage: forui-migrate [OPTIONS]",
     "",
     "Options:",
     "      --root <ROOT>  Flutter project root (the directory containing lib/features) [default: .]",
     "      --dry-run      Report what would change without writing any file",
     "      --json         Print the report as a JSON envelope instead of text",
     "  -h, --help         Print help",
     "  -V, --version      Print version"]

/-- What is said about wrong arguments. -/
def usageText (e : UsageError) : String :=
  linesText
    ["error: " ++ e.message, "", "Usage: forui-migrate [OPTIONS]", "",
     "For more information, try '--help'."]

/-- What is said about a failure. -/
def failureText (f : Failure) : String :=
  linesText (("❌ " ++ f.message ++ " [" ++ f.code.name ++ "]") :: f.hints.map ("💡 " ++ ·))

/-- An exit code as the system takes it: within 0 and 255. -/
def clampExit (code : Int) : Nat :=
  min code.toNat 255

/-- Migrates the features of a project. The report comes with the exit code. -/
def migrateProject (t : FileTree) (root : Path) (dryRun : Bool) :
    Except Failure (Report × Int) × FileTree :=
  let r := migrate t (Target.forRoot root) dryRun
  (r.1.map fun report => (report, 0), r.2)

/-- The envelope of a migration. -/
def envelope (result : Except Failure (Report × Int)) : String :=
  (Envelope.ofResult (result.map fun r => r.1.toJson)).pretty

/-- How a migration ends. -/
def ending (json : Bool) (result : Except Failure (Report × Int)) : Ending :=
  let exit := clampExit (exitCode result)
  if json then ⟨exit, envelope result ++ "\n", ""⟩
  else
    match result with
    | .ok (report, _) => ⟨exit, report.render, ""⟩
    | .error f => ⟨exit, "", failureText f⟩

/-- Does what was asked for. -/
def execute (t : FileTree) : Request → Ending × FileTree
  | .version => (⟨0, versionText, ""⟩, t)
  | .help => (⟨0, helpText, ""⟩, t)
  | .migrate options =>
    let r := migrateProject t options.root options.dryRun
    (ending options.json r.1, r.2)

/-- Runs the program. -/
def run (t : FileTree) (arguments : List Bytes) : Ending × FileTree :=
  match Request.ofArguments arguments with
  | .error e => (⟨2, "", usageText e⟩, t)
  | .ok request => execute t request

end Command

end WidgetMigration
