import WidgetMigration.Tree.Resolve

/-!
# Using a tree

What a program does with a file tree: ask what a path leads to, list a directory, read a text and
write one. Listing takes the read bit of the directory, reading that of the file. Writing takes the
write bit of a file that exists, and of the directory for one that does not; it goes through a link
to what the link points at, even if that has yet to be made.

Only `FileTree.write?` makes a new tree.
-/

namespace WidgetMigration

namespace FileTree

/-- The entry that a path leads to. -/
def lookup (t : FileTree) (purpose : Purpose) (p : Path) : Except FileError (Location × Entry) :=
  match t.resolve purpose p with
  | .error e => .error e
  | .ok (.free _ _) => .error .notFound
  | .ok (.entry loc) =>
    match t.get? loc with
    | some e => .ok (loc, e)
    | none => .error .notFound

/-- Whether a path leads to a regular file. -/
def isFile (t : FileTree) (p : Path) : Bool :=
  match t.lookup .follow p with
  | .ok (_, .file ..) => true
  | _ => false

/-- Whether a path leads to a directory. -/
def isDirectory (t : FileTree) (p : Path) : Bool :=
  match t.lookup .follow p with
  | .ok (_, .directory _) => true
  | _ => false

/-- Whether there is something at a path, be it a link that leads nowhere. -/
def isThere (t : FileTree) (p : Path) : Bool :=
  (t.lookup .inspect p).isOk || (t.lookup .follow p).isOk

/-- The entries of the directory that a path leads to, in the order of their names. -/
def list (t : FileTree) (p : Path) : Except FileError (List (FileName × Entry)) :=
  match t.lookup .follow p with
  | .error e => .error e
  | .ok (loc, .directory access) =>
    if access.read then .ok (t.children loc) else .error .permissionDenied
  | .ok _ => .error .notADirectory

/-- The text in the file that a path leads to. -/
def read (t : FileTree) (p : Path) : Except FileError String :=
  match t.lookup .follow p with
  | .error e => .error e
  | .ok (_, .file content access) =>
    if access.read then
      match Utf8.decode? content with
      | some text => .ok text
      | none => .error .notAText
    else .error .permissionDenied
  | .ok (_, .directory access) =>
    if access.read then .error .isADirectory else .error .permissionDenied
  | .ok (_, .link _) => .error .tooManyLinks

/-- The tree with a text in the file that a path leads to. -/
def write? (t : FileTree) (p : Path) (text : String) : Except FileError FileTree :=
  match t.resolve .create p with
  | .error e => .error e
  | .ok (.free directory name) =>
    match t.get? directory with
    | some (.directory access) =>
      if access.write then .ok (t.set (directory ++ [name]) (.file (Utf8.encode text) .full))
      else .error .permissionDenied
    | _ => .error .notADirectory
  | .ok (.entry loc) =>
    match t.get? loc with
    | some (.file _ access) =>
      if access.write then .ok (t.set loc (.file (Utf8.encode text) access))
      else .error .permissionDenied
    | some (.directory _) => .error .isADirectory
    | some (.link _) => .error .tooManyLinks
    | none => .error .notFound

theorem length_lt_of_list {t : FileTree} {p : Path} {es : List (FileName × Entry)}
    (h : t.list p = .ok es) : p.bytes.length < maxPathLength := by
  unfold list lookup at h
  split at h
  · cases h
  · rename_i hl
    split at hl
    · cases hl
    · cases hl
    · rename_i hr
      exact length_lt_of_resolve hr
  · cases h

end FileTree

end WidgetMigration
