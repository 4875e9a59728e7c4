import WidgetMigration.Json.Free

/-!
# Failures

What can go wrong, told by its cause. From the cause follow the code under which a failure is known
outside, the message for people, the details for programs, and the exit code of a command that ends
with it. Hints are added by whoever knows what may help.

The members of the details are in the order of their keys.
-/

namespace WidgetMigration

/-- The kinds of failure. -/
inductive FailureCode where
  | invalidArgument
  | discoveryFailed
  | io
  | json
  deriving DecidableEq, Repr

namespace FailureCode

/-- All kinds of failure. -/
def all : List FailureCode := [.invalidArgument, .discoveryFailed, .io, .json]

/-- The code of a kind of failure. -/
def name : FailureCode → String
  | .invalidArgument => "validation.invalid_argument"
  | .discoveryFailed => "migrate.discovery_failed"
  | .io => "internal.io_error"
  | .json => "internal.json_error"

/-- The kind of failure with a given code. -/
def ofName? (name : String) : Option FailureCode :=
  all.find? fun c => c.name == name

/-- The exit code of a command that ends with a failure. -/
def exitCode : FailureCode → Int
  | .invalidArgument => 2
  | .discoveryFailed => 3
  | .io => 1
  | .json => 1

end FailureCode

/-- Why something failed. -/
inductive Cause where
  /-- An argument has a value that cannot be used. -/
  | invalidArgument (field problem : String) (value : Option String)
  /-- The source files could not be looked for. -/
  | discoveryFailed (pattern error : String)
  /-- The system refused to read or to write something. -/
  | io (error : String) (context : Option String)
  /-- A value could not be written as JSON. -/
  | json (error : String) (context : Option String)
  /-- A cause with a message and details of its own. -/
  | custom (code : FailureCode) (message : String) (details : Json)
  deriving Repr

namespace Cause

/-- The kind of failure. -/
def code : Cause → FailureCode
  | .invalidArgument .. => .invalidArgument
  | .discoveryFailed .. => .discoveryFailed
  | .io .. => .io
  | .json .. => .json
  | .custom code .. => code

/-- What people are told. -/
def message : Cause → String
  | .invalidArgument _ problem _ => "Invalid argument: " ++ problem
  | .discoveryFailed _ error => "Failed to list source files: " ++ error
  | .io error none => "IO error: " ++ error
  | .io error (some context) => "IO error (" ++ context ++ "): " ++ error
  | .json .. => "JSON error"
  | .custom _ message _ => message

/-- A member that is left out if there is no text for it. -/
def optionalMember (key : String) : Option String → List (String × Json)
  | none => []
  | some text => [(key, .string text)]

/-- What programs are told. -/
def details : Cause → Json
  | .invalidArgument field problem value =>
    .object ([("field", .string field), ("problem", .string problem)] ++
      optionalMember "value" value)
  | .discoveryFailed pattern error =>
    .object [("error", .string error), ("pattern", .string pattern)]
  | .io error context
  | .json error context =>
    .object (optionalMember "context" context ++ [("error", .string error)])
  | .custom _ _ details => details.canonical

end Cause

/-- A failure: its cause, and hints on what to do about it. -/
structure Failure where
  cause : Cause
  hints : List String
  deriving Repr

namespace Failure

/-- A failure without hints. -/
def of (cause : Cause) : Failure := ⟨cause, []⟩

/-- Adds a hint behind the others. -/
def withHint (f : Failure) (hint : String) : Failure :=
  { f with hints := f.hints ++ [hint] }

/-- The kind of failure. -/
def code (f : Failure) : FailureCode := f.cause.code

/-- What people are told. -/
def message (f : Failure) : String := f.cause.message

/-- A refusal of the system to read or to write something. -/
def io (error context : String) : Failure :=
  of (.io error (some context))

/-- The hints as JSON. -/
def hintsJson (f : Failure) : Json :=
  .array (f.hints.map fun h => .object [("message", .string h)])

/-- A failure as JSON. Hints are left out if there are none. -/
def toJson (f : Failure) : Json :=
  .object ([("code", .string f.code.name), ("message", .string f.message),
      ("details", f.cause.details)] ++
    (if f.hints.isEmpty then [] else [("hints", f.hintsJson)]))

end Failure

end WidgetMigration
