/-!
# What the file system refuses

The ways in which looking something up, listing, reading and writing can fail, and how each is told.
A number is the system's own number of the error.
-/

namespace WidgetMigration

/-- Why the file system refused something. -/
inductive FileError where
  /-- Something on the path, or what it names, does not exist. -/
  | notFound
  /-- An access bit that is needed is not set. -/
  | permissionDenied
  /-- Something that is no directory is used as one. -/
  | notADirectory
  /-- A directory is read or written like a file. -/
  | isADirectory
  /-- A component has more than 255 bytes, or a path has 4096 or more. -/
  | nameTooLong
  /-- More than forty links were followed for one path. -/
  | tooManyLinks
  /-- The path holds a NUL byte, which no path can. -/
  | nulInPath
  /-- The content of a file is not a text. -/
  | notAText
  deriving DecidableEq, Repr

/-- How an error is told. -/
def FileError.message : FileError → String
  | .notFound => "No such file or directory (os error 2)"
  | .permissionDenied => "Permission denied (os error 13)"
  | .notADirectory => "Not a directory (os error 20)"
  | .isADirectory => "Is a directory (os error 21)"
  | .nameTooLong => "File name too long (os error 36)"
  | .tooManyLinks => "Too many levels of symbolic links (os error 40)"
  | .nulInPath => "file name contained an unexpected NUL byte"
  | .notAText => "stream did not contain valid UTF-8"

end WidgetMigration
