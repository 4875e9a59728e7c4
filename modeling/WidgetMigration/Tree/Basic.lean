import WidgetMigration.Tree.Name

/-!
# File trees

A file tree is what a directory tree holds at one moment: files with their bytes, directories and
symbolic links, each at a location. A location is the list of names that leads from the top of the
tree to an entry, so it does not pass through links and two locations never are the same file.
The top itself is a directory that everyone may use. What lies at a location whose parents are
missing cannot be reached.

Access bits are those of the owner: reading, writing and searching. Searching a directory is what
touching anything below it takes. Links have no access bits.
-/

namespace WidgetMigration

/-- What the owner of an entry may do with it. -/
structure Access where
  read : Bool
  write : Bool
  search : Bool
  deriving DecidableEq, Repr

namespace Access

/-- Everything is allowed. -/
def full : Access := ⟨true, true, true⟩

/-- The access that one octal digit gives. -/
def ofDigit (d : Nat) : Access :=
  ⟨d / 4 % 2 == 1, d / 2 % 2 == 1, d % 2 == 1⟩

end Access

/-- An entry of a file tree. -/
inductive Entry where
  | file (content : Bytes) (access : Access)
  | directory (access : Access)
  | link (target : Bytes)
  deriving DecidableEq, Repr

/-- An entry with all access bits set. -/
def Entry.unlocked : Entry → Entry
  | .file content _ => .file content .full
  | .directory _ => .directory .full
  | .link target => .link target

/-- Where an entry lies, as seen from the top of the tree. -/
abbrev Location := List FileName

/-- A file tree, and the directory in it at which relative paths begin. -/
structure FileTree where
  entries : List (Location × Entry)
  workingDirectory : Location
  unique : (entries.map Prod.fst).Nodup

namespace FileTree

/-- The entry at a location. -/
def get? (t : FileTree) : Location → Option Entry
  | [] => some (.directory .full)
  | loc => t.entries.lookup loc

/-- Replaces what stands under a key. -/
def replaceAt (loc : Location) (e : Entry) (entries : List (Location × Entry)) :
    List (Location × Entry) :=
  entries.map fun p => if p.1 = loc then (loc, e) else p

theorem keys_replaceAt (loc : Location) (e : Entry) (entries : List (Location × Entry)) :
    (replaceAt loc e entries).map Prod.fst = entries.map Prod.fst := by
  simp only [replaceAt, List.map_map]
  apply List.map_congr_left
  intro p _
  simp only [Function.comp]
  split
  · rename_i h
    exact h.symm
  · rfl

/-- Puts an entry at a location, in the place of what was there before. -/
def set (t : FileTree) (loc : Location) (e : Entry) : FileTree :=
  if h : loc ∈ t.entries.map Prod.fst then
    { t with
      entries := replaceAt loc e t.entries
      unique := by rw [keys_replaceAt]; exact t.unique }
  else
    { t with
      entries := t.entries ++ [(loc, e)]
      unique := by
        rw [List.map_append, List.nodup_append]
        refine ⟨t.unique, by simp, ?_⟩
        intro a ha b hb
        simp only [List.map_cons, List.map_nil, List.mem_singleton] at hb
        rintro rfl
        exact h (hb ▸ ha) }

/-- The tree with all access bits set. -/
def unlocked (t : FileTree) : FileTree where
  entries := t.entries.map fun p => (p.1, p.2.unlocked)
  workingDirectory := t.workingDirectory
  unique := by
    rw [List.map_map]
    exact t.unique

/-- The name under which an entry appears in a directory, if it lies directly in it. -/
def nameIn? (directory : Location) (loc : Location) : Option FileName :=
  match loc.getLast? with
  | some name => if loc = directory ++ [name] then some name else none
  | none => none

/-- The entries directly in a directory, in the order of their names. -/
def children (t : FileTree) (directory : Location) : List (FileName × Entry) :=
  (t.entries.filterMap fun p => (nameIn? directory p.1).map fun name => (name, p.2)).mergeSort
    fun a b => FileName.le a.1 b.1

end FileTree

end WidgetMigration
