import WidgetMigration.Text.Split
import WidgetMigration.Text.Utf8

/-!
# Paths

A path is the bytes that name a file. They need not be a text. Nothing is normalised when paths are
joined: `a//b`, `a/./b` and `a/b` are three paths, although they have the same components.

The components of a path are what it says step by step. Doubled slashes and inner dots say nothing,
only a dot at the very beginning is a component. The component-wise order of paths compares them one
by one, so all files below `a` come before `a-b`.
-/

namespace WidgetMigration

/-- A byte string. -/
abbrev Bytes := List UInt8

/-- The slash, which separates the segments of a path. -/
def slash : UInt8 := 0x2F

/-- The segment that stands for the directory itself. -/
def dot : Bytes := [0x2E]

/-- The segment that stands for the directory above. -/
def dotDot : Bytes := [0x2E, 0x2E]

/-- A path. -/
structure Path where
  bytes : Bytes
  deriving DecidableEq, Repr

/-- A step of a path. -/
inductive Component where
  | root
  | current
  | parent
  | name (bytes : Bytes)
  deriving DecidableEq, Repr

namespace Path

/-- The path that a text spells. -/
def ofString (s : String) : Path := ⟨Utf8.encode s⟩

/-- The path as a text, if it is one. -/
def toString? (p : Path) : Option String := Utf8.decode? p.bytes

/-- The path as a text, what is no text being replaced. -/
def display (p : Path) : String := Utf8.decodeLossy p.bytes

/-- The path that stands for the working directory. -/
def here : Path := ⟨dot⟩

/-- Whether a path begins at the top of the tree. -/
def isAbsolute (p : Path) : Bool := p.bytes.head? == some slash

/-- Goes on from `p` along `q`. An absolute path leads to where it leads from anywhere. -/
def join (p q : Path) : Path :=
  if q.isAbsolute then q
  else if p.bytes = [] ∨ p.bytes.getLast? = some slash then ⟨p.bytes ++ q.bytes⟩
  else ⟨p.bytes ++ slash :: q.bytes⟩

/-- What stands between the slashes of a path. -/
def segments (p : Path) : List Bytes := splitOn slash p.bytes

/-- Whether a segment says nothing when it is not the first one. -/
def isSilent (s : Bytes) : Bool := s == [] || s == dot

/-- The components that some segments behind the first one stand for. -/
def laterComponents (segments : List Bytes) : List Component :=
  (segments.filter fun s => !isSilent s).map fun s => if s = dotDot then .parent else .name s

/-- The components of a path. -/
def components (p : Path) : List Component :=
  match p.segments with
  | [] => []
  | first :: later =>
    if first = [] then (if later = [] then [] else .root :: laterComponents later)
    else if first = dot then .current :: laterComponents later
    else laterComponents (first :: later)

/-! ## Order -/

/-- What a component is compared by. The top of the tree comes first, names come last. -/
def componentKey : Component → Bytes
  | .root => [0]
  | .current => [1]
  | .parent => [2]
  | .name bytes => 3 :: bytes

/-- What a path is compared by. -/
def sortKey (p : Path) : List Bytes := p.components.map componentKey

/-- Whether `p` does not come after `q` in the component-wise order. -/
def le (p q : Path) : Bool := decide (p.sortKey ≤ q.sortKey)

/-- Sorts paths by their components. Paths with the same components keep their order. -/
def sort (paths : List Path) : List Path := paths.mergeSort le

/-! ## Relative paths -/

/-- The segments behind the next component and `n` more. -/
def dropComponents : Nat → List Bytes → List Bytes
  | 0, segments => segments
  | _ + 1, [] => []
  | n + 1, s :: segments =>
    if isSilent s then dropComponents (n + 1) segments else dropComponents n segments

/-- Segments without the silent ones at the end. -/
def trimEnd (segments : List Bytes) : List Bytes :=
  (segments.reverse.dropWhile isSilent).reverse

/-- A path without silent segments at its end. The first segment always stays. -/
def trimmed (p : Path) : Path :=
  match p.segments with
  | [] => p
  | first :: later =>
    let kept := trimEnd later
    if first = [] ∧ kept = [] then ⟨if later = [] then [] else [slash]⟩
    else ⟨joinWith slash (first :: kept)⟩

/-- What leads from `base` to `p`, if `p` begins with the components of `base`. It is spelled as it
is in `p`, without silent segments at its ends. -/
def stripBase? (base p : Path) : Option Path :=
  match base.components.length with
  | 0 => some p.trimmed
  | n + 1 =>
    if base.components <+: p.components then
      let rest := dropComponents n (p.segments.drop 1)
      some ⟨joinWith slash (trimEnd (rest.dropWhile isSilent))⟩
    else none

/-- The name of `p` as seen from `base`: what leads from there to `p`, or else all of `p`. -/
def relativeTo (base p : Path) : Path :=
  (stripBase? base p).getD p

end Path

end WidgetMigration
