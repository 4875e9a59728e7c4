import WidgetMigration.Tree.Basic
import WidgetMigration.Tree.Error

/-!
# Following a path

`FileTree.resolve` follows a path through a tree, as the system does it. Each step is taken in a
directory, which has to be one and has to be searchable, also for a step that stays where it is or
goes up. Links on the way are followed, up to forty of them; whether a link at the end is followed
depends on what the path is for (`Purpose`). A slash at the end asks for a directory.

The answer is a location, or a name that is still free in an existing directory. The order of the
checks decides which of two reasons is told: the directory comes before its access, and that before
the length of the name and whether there is such a name.
-/

namespace WidgetMigration

/-- What a path is followed for. -/
inductive Purpose where
  /-- To learn about the entry itself, be it a link. -/
  | inspect
  /-- To get at what the path leads to. -/
  | follow
  /-- To write a file, which need not exist. -/
  | create
  deriving DecidableEq, Repr

/-- Where a path leads. -/
inductive Reached where
  | entry (loc : Location)
  | free (directory : Location) (name : FileName)
  deriving DecidableEq

/-- A path as the system reads it: where it begins, its steps, and whether it ends in a slash. -/
structure Route where
  absolute : Bool
  steps : List Bytes
  endsInSlash : Bool
  deriving DecidableEq, Repr

/-- Takes a path apart. -/
def Route.ofBytes (b : Bytes) : Route :=
  { absolute := b.head? == some slash
    steps := (splitOn slash b).filter fun s => !s.isEmpty
    endsInSlash := b.getLast? == some slash }

namespace FileTree

/-- Whether a step can be taken at a location: it has to be a directory that can be searched. -/
def checkSearch (t : FileTree) (loc : Location) : Except FileError Unit :=
  match t.get? loc with
  | some (.directory access) => if access.search then .ok () else .error .permissionDenied
  | some _ => .error .notADirectory
  | none => .error .notFound

/-- Whether what was reached may end in a slash: it has to be a directory. -/
def checkEnd (t : FileTree) (loc : Location) (endsInSlash : Bool) : Except FileError Reached :=
  if endsInSlash then
    match t.get? loc with
    | some (.directory _) => .ok (.entry loc)
    | some _ => .error .notADirectory
    | none => .error .notFound
  else .ok (.entry loc)

/-- The name that a step asks for. -/
def nameOfStep (step : Bytes) : Except FileError FileName :=
  if 255 < step.length then .error .nameTooLong
  else
    match FileName.ofBytes? step with
    | some name => .ok name
    | none => .error .notFound

/-- Takes steps from a location on. `links` more links may be followed. -/
def walk (t : FileTree) (purpose : Purpose) (links : Nat) (loc : Location) (steps : List Bytes)
    (endsInSlash : Bool) : Except FileError Reached :=
  match steps with
  | [] => t.checkEnd loc endsInSlash
  | step :: rest =>
    match t.checkSearch loc with
    | .error e => .error e
    | .ok () =>
      if step = dot then t.walk purpose links loc rest endsInSlash
      else if step = dotDot then t.walk purpose links loc.dropLast rest endsInSlash
      else if purpose = .create ∧ rest = [] ∧ endsInSlash = true then .error .isADirectory
      else
        match nameOfStep step with
        | .error e => .error e
        | .ok name =>
          match t.get? (loc ++ [name]) with
          | none => if rest = [] then .ok (.free loc name) else .error .notFound
          | some (.link target) =>
            if rest = [] ∧ endsInSlash = false ∧ purpose = .inspect then
              .ok (.entry (loc ++ [name]))
            else
              match links with
              | 0 => .error .tooManyLinks
              | links + 1 =>
                let route := Route.ofBytes target
                t.walk purpose links (if route.absolute then [] else loc) (route.steps ++ rest)
                  (if rest = [] then endsInSlash || route.endsInSlash else endsInSlash)
          | some _ => t.walk purpose links (loc ++ [name]) rest endsInSlash
termination_by (links, steps.length)

/-- The number of links that may be followed for one path. -/
def maxLinks : Nat := 40

/-- The least length of a path that is too long. -/
def maxPathLength : Nat := 4096

/-- Follows a path. -/
def resolve (t : FileTree) (purpose : Purpose) (p : Path) : Except FileError Reached :=
  if p.bytes.contains 0 then .error .nulInPath
  else if p.bytes = [] then .error .notFound
  else if maxPathLength ≤ p.bytes.length then .error .nameTooLong
  else
    let route := Route.ofBytes p.bytes
    t.walk purpose maxLinks (if route.absolute then [] else t.workingDirectory) route.steps
      route.endsInSlash

theorem length_lt_of_resolve {t : FileTree} {purpose : Purpose} {p : Path} {r : Reached}
    (h : t.resolve purpose p = .ok r) : p.bytes.length < maxPathLength := by
  unfold resolve at h
  split at h
  · cases h
  · split at h
    · cases h
    · split at h
      · cases h
      · omega

end FileTree

end WidgetMigration
