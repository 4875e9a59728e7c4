import WidgetMigration.Failure
import WidgetMigration.Migration.Target
import WidgetMigration.Wildcard.Walk

/-!
# Finding the source files

The files of a target: everything below the base directory whose name ends in a dot and the
extension, if it is a regular file when links are followed. A base directory that does not exist has
no files.

The base directory stands for itself, but the extension is a part of the pattern: wildcards in it
have their meaning, and a wrong pattern is a failure. A directory that cannot be listed is no
failure; it is found as unreadable.
-/

namespace WidgetMigration

/-- What was found: the files in the order of their paths, and the directories that could not be
listed in the order of the walk. -/
structure Discovery where
  files : List Path
  unreadable : List (Path × Failure)

namespace Target

/-- The pattern for the files below a base directory. -/
def pattern (baseDir extension : String) : String :=
  Wildcard.escape baseDir ++ "/**/*." ++ extension

/-- The failure of a target whose base directory is not a text. -/
def rootIsNotText (target : Target) : Failure :=
  .of (.invalidArgument "root" "Project root is not valid UTF-8" (some target.baseDir.display))

/-- The failure of a target whose pattern is wrong. -/
def patternIsWrong (pattern : String) (e : Wildcard.PatternError) : Failure :=
  (Failure.of (.discoveryFailed pattern e.message)).withHint
    "Pass --root pointing at the Flutter project directory"

/-- The failure to list a directory. -/
def unreadableDirectory (path : Path) (e : FileError) : Failure :=
  .io e.message ("list " ++ path.display)

/-- The files and unreadable directories among what a walk came upon. -/
def discoveryOf (t : FileTree) (finds : List Find) : Discovery where
  files := Path.sort (finds.filterMap fun
    | .place p => if t.isFile p.path then some p.path else none
    | .unreadable .. => none)
  unreadable := finds.filterMap fun
    | .place _ => none
    | .unreadable path e => some (path, unreadableDirectory path e)

/-- Finds the files of a target. -/
def discover (t : FileTree) (target : Target) : Except Failure Discovery :=
  match target.baseDir.toString? with
  | none => .error target.rootIsNotText
  | some base =>
    let text := pattern base target.extension
    match Wildcard.Pattern.parse text with
    | .error e => .error (patternIsWrong text e)
    | .ok pattern => .ok (discoveryOf t (t.matching pattern))

end Target

end WidgetMigration
