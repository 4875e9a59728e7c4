import WidgetMigration.Path.Basic
import WidgetMigration.Json.Value

/-!
# The target of a migration

Which files a migration is for: those with an extension below a base directory, reported as seen
from a project root.
-/

namespace WidgetMigration

/-- What a migration is for. -/
structure Target where
  root : Path
  baseDir : Path
  extension : String
  deriving DecidableEq, Repr

namespace Target

/-- The directory of a project that holds its features, step by step. -/
def featuresDir : List String := ["lib", "features"]

/-- The extension of the files that are migrated. -/
def sourceExtension : String := "dart"

/-- The target for the features of a project. -/
def forRoot (root : Path) : Target where
  root := root
  baseDir := featuresDir.foldl (fun dir step => dir.join (Path.ofString step)) root
  extension := sourceExtension

/-- A target as JSON. -/
def toJson (target : Target) : Json :=
  .object [("root", .string target.root.display), ("baseDir", .string target.baseDir.display),
    ("extension", .string target.extension)]

end Target

end WidgetMigration
