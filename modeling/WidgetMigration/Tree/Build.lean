import WidgetMigration.Tree.Resolve

/-!
# Building and comparing trees

`FileTree.add` puts entries into a tree one by one and makes the directories on the way, whatever the
access bits say. `FileTree.changes` tells which files differ between two trees, by what they hold and
not by whether they were written.
-/

namespace WidgetMigration

namespace FileTree

/-- A tree that holds nothing but a directory at a location. Relative paths begin there. -/
def atDirectory (loc : Location) : FileTree :=
  (List.range loc.length).foldl (fun t n => t.set (loc.take (n + 1)) (.directory .full))
    { entries := [], workingDirectory := loc, unique := by simp }

/-- Takes steps from a location on and makes directories where there is nothing. -/
def makeDirectories (t : FileTree) (loc : Location) : List FileName → FileTree × Location
  | [] => (t, loc)
  | name :: names =>
    match t.get? (loc ++ [name]) with
    | none => (t.set (loc ++ [name]) (.directory .full)).makeDirectories (loc ++ [name]) names
    | some (.link _) =>
      match t.unlocked.walk .follow maxLinks loc [name.bytes] false with
      | .ok (.entry target) => t.makeDirectories target names
      | _ => t.makeDirectories (loc ++ [name]) names
    | some _ => t.makeDirectories (loc ++ [name]) names

/-- Puts an entry at a path and makes the directories on the way. A path that cannot be one leaves
the tree as it is. -/
def add (t : FileTree) (p : Path) (e : Entry) : FileTree :=
  let route := Route.ofBytes p.bytes
  match (route.steps.filter (· != dot)).mapM FileName.ofBytes? with
  | none => t
  | some names =>
    match names.getLast? with
    | none => t
    | some name =>
      let made := t.makeDirectories (if route.absolute then [] else t.workingDirectory)
        names.dropLast
      made.1.set (made.2 ++ [name]) e

/-- What a file at a location holds. -/
def content? (t : FileTree) (loc : Location) : Option Bytes :=
  match t.get? loc with
  | some (.file content _) => some content
  | _ => none

/-- The files of `after` that `before` does not hold as they are, with what they hold. -/
def changes (before after : FileTree) : List (Location × Bytes) :=
  after.entries.filterMap fun p =>
    match p.2 with
    | .file content _ => if before.content? p.1 = some content then none else some (p.1, content)
    | _ => none

/-- The path of a location as seen from the working directory, if it lies below it. -/
def relativePath? (t : FileTree) (loc : Location) : Option Path :=
  if t.workingDirectory <+: loc then
    some ⟨joinWith slash ((loc.drop t.workingDirectory.length).map FileName.bytes)⟩
  else none

/-- The changes below the working directory, by their paths and in the order of the paths' bytes. -/
def localChanges (before after : FileTree) : List (Path × Bytes) :=
  ((before.changes after).filterMap fun c =>
    (after.relativePath? c.1).map fun path => (path, c.2)).mergeSort
      fun a b => decide (a.1.bytes ≤ b.1.bytes)

end FileTree

end WidgetMigration
