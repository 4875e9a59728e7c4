import WidgetMigration.Path.Basic

/-!
# The command line

What the arguments of the program ask for. Arguments are read from left to right. The first fault
decides, and a request for the version or for help is granted as soon as it is met, whatever comes
behind it.

Each option may be given once. The root is given behind `--root` or in the same argument, behind an
equals sign. Only in the latter case may it begin with a dash, a lone dash excepted. It need not be
a text. There are no positional arguments, so nothing may follow `--`.
-/

namespace WidgetMigration

/-- How a migration is asked for. -/
structure Options where
  root : Path
  dryRun : Bool
  json : Bool
  deriving DecidableEq, Repr

/-- What the arguments ask for. -/
inductive Request where
  | migrate (options : Options)
  | version
  | help
  deriving DecidableEq, Repr

/-- What is wrong with the arguments. -/
inductive UsageError where
  | unexpected (argument : Bytes)
  | repeated (option : String)
  | noValue (option : String)
  | needlessValue (option : String)
  deriving DecidableEq, Repr

namespace UsageError

/-- How a wrong argument is told. -/
def message : UsageError → String
  | .unexpected argument => "unexpected argument '" ++ Utf8.decodeLossy argument ++ "' found"
  | .repeated option => "the argument '" ++ option ++ "' cannot be used multiple times"
  | .noValue option => "a value is required for '" ++ option ++ "' but none was supplied"
  | .needlessValue option => "unexpected value for '" ++ option ++ "' found; no more were expected"

end UsageError

/-- The options that were given so far. -/
structure GivenOptions where
  root : Option Path
  dryRun : Bool
  json : Bool

namespace GivenOptions

/-- No option was given. -/
def none : GivenOptions := ⟨.none, false, false⟩

/-- Gives the root. -/
def withRoot (g : GivenOptions) (value : Bytes) : Except UsageError GivenOptions :=
  if value = [] then .error (.noValue "--root <ROOT>")
  else if g.root.isSome then .error (.repeated "--root <ROOT>")
  else .ok { g with root := some ⟨value⟩ }

/-- Asks for a dry run. -/
def withDryRun (g : GivenOptions) : Except UsageError GivenOptions :=
  if g.dryRun then .error (.repeated "--dry-run") else .ok { g with dryRun := true }

/-- Asks for JSON. -/
def withJson (g : GivenOptions) : Except UsageError GivenOptions :=
  if g.json then .error (.repeated "--json") else .ok { g with json := true }

/-- What was asked for. The root is the working directory if it was not given. -/
def options (g : GivenOptions) : Options :=
  ⟨g.root.getD Path.here, g.dryRun, g.json⟩

end GivenOptions

/-- A single argument, by its form. -/
inductive Argument where
  | rootOption
  | rootWithValue (value : Bytes)
  | dryRun
  | json
  | version
  | help
  | endOfOptions
  | withNeedlessValue (option : String)
  | other (text : Bytes)
  deriving DecidableEq, Repr

/-- The dash, with which options begin. -/
def dash : UInt8 := 0x2D

/-- What stands behind a spelling at the head of an argument. -/
def behind? (spelling : String) (a : Bytes) : Option Bytes :=
  let s := Utf8.encode spelling
  if s <+: a then some (a.drop s.length) else .none

/-- The form of an argument. Short options may be run together, but the two there are answer at
once. -/
def Argument.ofBytes (a : Bytes) : Argument :=
  if a = Utf8.encode "--" then .endOfOptions
  else if a = Utf8.encode "--root" then .rootOption
  else if a = Utf8.encode "--dry-run" then .dryRun
  else if a = Utf8.encode "--json" then .json
  else if a = Utf8.encode "--version" then .version
  else if a = Utf8.encode "--help" then .help
  else if (behind? "-V" a).isSome then .version
  else if (behind? "-h" a).isSome then .help
  else
    match behind? "--root=" a with
    | some value => .rootWithValue value
    | .none =>
      match ["--dry-run", "--json", "--version", "--help"].find? fun option =>
          (behind? (option ++ "=") a).isSome with
      | some option => .withNeedlessValue option
      | .none => .other a

/-- Whether an argument can be the value of the option before it. -/
def canBeValue (a : Bytes) : Bool :=
  a == [dash] || a.head? != some dash

/-- Reads the arguments behind those that gave `g`. -/
def readArguments (g : GivenOptions) : List Bytes → Except UsageError Request
  | [] => .ok (.migrate g.options)
  | a :: rest =>
    match Argument.ofBytes a with
    | .endOfOptions =>
      match rest with
      | [] => .ok (.migrate g.options)
      | b :: _ => .error (.unexpected b)
    | .rootOption =>
      match rest with
      | [] => .error (.noValue "--root <ROOT>")
      | value :: rest =>
        if canBeValue value then
          match g.withRoot value with
          | .error e => .error e
          | .ok g => readArguments g rest
        else .error (.noValue "--root <ROOT>")
    | .rootWithValue value =>
      match g.withRoot value with
      | .error e => .error e
      | .ok g => readArguments g rest
    | .dryRun =>
      match g.withDryRun with
      | .error e => .error e
      | .ok g => readArguments g rest
    | .json =>
      match g.withJson with
      | .error e => .error e
      | .ok g => readArguments g rest
    | .version => .ok .version
    | .help => .ok .help
    | .withNeedlessValue option => .error (.needlessValue option)
    | .other text => .error (.unexpected text)

/-- Reads the arguments of the program. -/
def Request.ofArguments (arguments : List Bytes) : Except UsageError Request :=
  readArguments .none arguments

end WidgetMigration
