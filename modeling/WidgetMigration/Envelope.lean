import WidgetMigration.Failure
import WidgetMigration.Json.Printer

/-!
# Envelopes

How a result is printed for programs: an object that says whether the command succeeded, with the
data of a success or the failure. The exit code of a command is told apart from its data.
-/

namespace WidgetMigration

namespace Envelope

/-- The envelope of a success. -/
def success (data : Json) : Json :=
  .object [("success", .bool true), ("data", data)]

/-- The envelope of a failure. -/
def failure (f : Failure) : Json :=
  .object [("success", .bool false), ("error", f.toJson)]

/-- The envelope of a result. -/
def ofResult : Except Failure Json → Json
  | .ok data => success data
  | .error f => failure f

end Envelope

/-- The exit code of a command: a completed one carries its own. -/
def exitCode {α : Type} : Except Failure (α × Int) → Int
  | .ok (_, code) => code
  | .error f => f.code.exitCode

end WidgetMigration
