import WidgetMigration.Tree.Access
import WidgetMigration.Wildcard.Pattern

/-!
# Walking a tree along a pattern

`FileTree.matching` lists what a pattern matches in a file tree, in the order in which a depth-first walk
comes upon it. A directory is tested before its contents, and its contents come before the names
behind it. A directory that cannot be listed appears in the walk as such (`Find.unreadable`); the
walk goes on behind it.

A part without wildcards is not looked up in a listing, it is only checked that something is there.
So the walk can pass through directories that can be searched but not listed. Names that are no text
are matched by no part, yet the walk for a recursive part enters such directories.

A link to a directory counts as a directory, and a cycle of links is walked until the system refuses
to follow the path any further. `descend` ends because a path that can be listed is not too long and
the paths below it are longer.
-/

namespace WidgetMigration

/-- A path that the walk has come to, and whether it is a directory. -/
structure Place where
  path : Path
  isDirectory : Bool
  deriving DecidableEq, Repr

/-- What a walk comes upon. -/
inductive Find where
  | place (p : Place)
  | unreadable (path : Path) (error : FileError)
  deriving DecidableEq, Repr

/-- Whether a find counts for a pattern, which may be for directories only. -/
def Find.counts (pattern : Wildcard.Pattern) : Find → Bool
  | .place p => !pattern.directoriesOnly || p.isDirectory
  | .unreadable .. => true

namespace FileTree

/-- The path of an entry in a listed directory. Entries of the working directory are known by their
names alone. -/
def entryPath (directory : Path) (name : FileName) : Path :=
  if directory = Path.here then ⟨name.bytes⟩ else directory.join ⟨name.bytes⟩

/-- The place of an entry in a listed directory. The listing tells what is a directory, and only a
link has to be followed to know. -/
def entryPlace (t : FileTree) (directory : Path) (entry : FileName × Entry) : Place :=
  let path := entryPath directory entry.1
  { path := path
    isDirectory :=
      match entry.2 with
      | .directory _ => true
      | .file .. => false
      | .link _ => t.isDirectory path }

/-- How far a path is from being too long. The path of the working directory is as far as can be, as
it is not part of the paths below it. -/
def room (p : Path) : Nat :=
  if p = Path.here then maxPathLength + 1 else maxPathLength - p.bytes.length

theorem entryPath_ne_here (directory : Path) (name : FileName) :
    entryPath directory name ≠ Path.here := by
  unfold entryPath
  split
  · intro h
    exact name.bytes_ne_dot (congrArg Path.bytes h)
  · rename_i hd
    have hn : name.bytes ≠ [] := name.bytes_ne_nil
    have hpos : 0 < name.bytes.length := List.length_pos_iff.2 hn
    unfold Path.join
    split
    · intro h
      exact name.bytes_ne_dot (congrArg Path.bytes h)
    · split
      · rename_i hj
        intro h
        have hb := congrArg Path.bytes h
        simp only [Path.here, dot] at hb
        rcases hj with hj | hj
        · rw [hj] at hb
          exact name.bytes_ne_dot hb
        · have hl := congrArg List.length hb
          simp only [List.length_append, List.length_cons, List.length_nil] at hl
          have hz : directory.bytes = [] := List.length_eq_zero_iff.1 (by omega)
          simp [hz] at hj
      · intro h
        have hl := congrArg (fun q : Path => q.bytes.length) h
        simp only [Path.here, dot, List.length_append, List.length_cons, List.length_nil] at hl
        omega

theorem room_entryPath_lt {directory : Path} (name : FileName)
    (h : directory.bytes.length < maxPathLength) :
    room (entryPath directory name) < room directory := by
  have hne := entryPath_ne_here directory name
  have hpos : 0 < name.bytes.length := List.length_pos_iff.2 name.bytes_ne_nil
  unfold room
  rw [if_neg hne]
  split
  · omega
  · rename_i hd
    have hlen : directory.bytes.length < (entryPath directory name).bytes.length := by
      unfold entryPath
      rw [if_neg hd]
      unfold Path.join
      have hs : (⟨name.bytes⟩ : Path).isAbsolute = false := by
        cases hb : name.bytes with
        | nil => exact absurd hb name.bytes_ne_nil
        | cons c r =>
          have hc : c ≠ slash := by
            rintro rfl
            exact name.slash_not_mem (by simp [hb])
          simp [Path.isAbsolute, hc]
      simp only [hs, Bool.false_eq_true, if_false]
      split
      · simp only [List.length_append]
        omega
      · simp only [List.length_append, List.length_cons]
        omega
    omega

/-- An entry below a directory that the walk for a recursive part has come to, with its name. -/
inductive Visit where
  | entry (place : Place) (name : FileName)
  | unreadable (path : Path) (error : FileError)

/-- Everything below a directory, each entry before what is below it. -/
def descend (t : FileTree) (directory : Path) : List Visit :=
  match h : t.list directory with
  | .error e => [.unreadable directory e]
  | .ok entries =>
    entries.flatMap fun entry =>
      let place := t.entryPlace directory entry
      have : room (entryPath directory entry.1) < room directory :=
        room_entryPath_lt entry.1 (length_lt_of_list h)
      .entry place entry.1 ::
        if place.isDirectory then t.descend (entryPath directory entry.1) else []
termination_by room directory

open Wildcard

/-- Whether a part of a pattern stands for a file name. -/
def accepts (part : Part) (name : FileName) : Bool :=
  match Utf8.decode? name.bytes with
  | some text => part.accepts text.toList
  | none => false

/-- The place that a part without wildcards leads to, if there is something. The dot names are there
in every directory. -/
def literalPlace? (t : FileTree) (p : Place) (name : List Char) : Option Place :=
  let step := Path.ofString (String.ofList name)
  let path := if p.path = Path.here then step else p.path.join step
  let isThere := if step.bytes = dot ∨ step.bytes = dotDot then p.isDirectory else t.isThere path
  if isThere then some ⟨path, t.isDirectory path⟩ else none

/-- The dot names that a part with wildcards stands for. It has to begin with a dot to do so. -/
def dotPlaces (t : FileTree) (p : Place) (part : Part) : List Place :=
  if part.leadsWithDot then
    (["..", "."].filter fun name => part.accepts name.toList).map fun name =>
      let path := p.path.join (Path.ofString name)
      ⟨path, t.isDirectory path⟩
  else []

/-- What the parts of a pattern match below a place. -/
def expand (t : FileTree) : List Part → Place → List Find
  | [], p => [.place p]
  | .literal name :: parts, p =>
    match t.literalPlace? p name with
    | none => []
    | some q => t.expand parts q
  | .recursive :: parts, p =>
    if p.isDirectory then
      (t.descend p.path).flatMap fun
        | .unreadable path e => [.unreadable path e]
        | .entry q name =>
          match parts with
          | [] => if q.isDirectory then [.place q] else []
          | part :: parts => if accepts part name then t.expand parts q else []
    else []
  | .wildcard tokens :: parts, p =>
    if p.isDirectory then
      match t.list p.path with
      | .error e => [.unreadable p.path e]
      | .ok entries =>
        (t.dotPlaces p (.wildcard tokens)).flatMap (t.expand parts) ++
          entries.flatMap fun entry =>
            if accepts (.wildcard tokens) entry.1 then t.expand parts (t.entryPlace p.path entry)
            else []
    else []

/-- Where the walk along a pattern begins. -/
def startPlace (t : FileTree) (pattern : Pattern) : Place :=
  let path := if pattern.absolute then ⟨[slash]⟩ else Path.here
  ⟨path, t.isDirectory path⟩

/-- What a pattern matches in a tree. -/
def matching (t : FileTree) (pattern : Pattern) : List Find :=
  (t.expand pattern.parts (t.startPlace pattern)).filter fun find => find.counts pattern

end FileTree

end WidgetMigration
