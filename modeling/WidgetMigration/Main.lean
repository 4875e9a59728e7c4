import WidgetMigration.Command
import WidgetMigration.Tree.Build

/-!
# The program

The program on a real file system. What the command may look at is read into a file tree, the command
runs on the tree, and the files that it changed are written back. Whether something can be listed,
read or written is found out by trying, without changing anything.

Names on disk come as strings here, so a directory with names that are no text is not read
faithfully.
-/

namespace WidgetMigration.Disk

/-- Whether an action ends without an error. -/
def endsWell {α : Type} (action : IO α) : IO Bool := do
  try
    let _ ← action
    return true
  catch _ => return false

/-- The absolute path with some names. -/
def absolutePath (names : List String) : String :=
  "/" ++ "/".intercalate names

/-- The names on an absolute path. -/
def namesOf (path : String) : List String :=
  (path.splitOn "/").filter (· != "")

/-- The names on the path behind all links, if a path leads anywhere. -/
def realNames? (names : List String) : IO (Option (List String)) := do
  try
    let path ← IO.FS.realPath (absolutePath names)
    return some (namesOf path.toString)
  catch _ => return none

/-- Reads a file on disk. What cannot be read counts as empty. -/
def loadFile (path : String) : IO Entry := do
  let writable ← endsWell (IO.FS.Handle.mk path .readWrite)
  try
    let content ← IO.FS.readBinFile path
    return .file content.toList ⟨true, writable, false⟩
  catch _ => return .file [] ⟨false, writable, false⟩

/-- Reads a single entry on disk into a tree: a file with its content, a link with the place it
leads to, a directory without what is in it. -/
def loadEntry (t : FileTree) (names : List String) : IO FileTree := do
  let path := absolutePath names
  let entry := IO.FS.DirEntry.mk "/" ("/".intercalate names)
  let place := Path.ofString path
  try
    match (← entry.path.symlinkMetadata).type with
    | .dir =>
      let listed ← endsWell entry.path.readDir
      return t.add place (.directory ⟨listed, true, true⟩)
    | .symlink =>
      let target := match ← realNames? names with
        | some target => absolutePath target
        | none => path
      return t.add place (.link (Utf8.encode target))
    | _ => return t.add place (← loadFile path)
  catch _ => return t

/-- Whether a tree has an entry at an absolute path. -/
def isLoaded (t : FileTree) (names : List String) : Bool :=
  match names.mapM fun name => FileName.ofBytes? (Utf8.encode name) with
  | some loc => (t.get? loc).isSome
  | none => false

/-- Reads an entry and everything below it, also what links lead to. -/
partial def loadAll (t : FileTree) (names : List String) : IO FileTree := do
  let entry := IO.FS.DirEntry.mk "/" ("/".intercalate names)
  let mut t ← loadEntry t names
  match ← realNames? names with
  | none => return t
  | some real =>
    if real != names then
      return ← if isLoaded t real then pure t else loadAll t real
    try
      if ← entry.path.isDir then
        for child in ← entry.path.readDir do
          t ← loadAll t (names ++ [child.fileName])
      return t
    catch _ => return t

/-- Reads what lies on the way along some steps, and returns where it ends. -/
def loadWay (t : FileTree) (names : List String) : List String → IO (FileTree × List String)
  | [] => return (t, names)
  | step :: steps => do
    let t ← if step == "." || step == ".." then pure t else loadEntry t (names ++ [step])
    match ← realNames? (names ++ [step]) with
    | some names => loadWay t names steps
    | none => return (t, names ++ [step])

/-- Reads what a migration may look at. -/
def loadFor (options : Options) : IO FileTree := do
  let directory := (← realNames? (namesOf (← IO.currentDir).toString)).getD []
  let t := FileTree.atDirectory (directory.filterMap fun n => FileName.ofBytes? (Utf8.encode n))
  let base := (Target.forRoot options.root).baseDir
  match base.toString? with
  | none => return t
  | some text =>
    let start := if base.isAbsolute then [] else directory
    let (t, names) ← loadWay t start (namesOf text)
    loadAll t names

/-- Writes the files back that a command changed. -/
def writeBack (before after : FileTree) : IO Unit := do
  for (loc, content) in before.changes after do
    let names := loc.map fun name => Utf8.decodeLossy name.bytes
    IO.FS.writeBinFile (absolutePath names) (ByteArray.mk content.toArray)

end WidgetMigration.Disk

open WidgetMigration WidgetMigration.Disk in
/-- Runs the command with the arguments of the program. -/
def main (arguments : List String) : IO UInt32 := do
  let bytes := arguments.map Utf8.encode
  let before ← match Request.ofArguments bytes with
    | .ok (.migrate options) => loadFor options
    | _ => pure (FileTree.atDirectory [])
  let (ending, after) := Command.run before bytes
  writeBack before after
  IO.print ending.stdout
  IO.eprint ending.stderr
  return UInt32.ofNat ending.exit
