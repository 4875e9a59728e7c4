import WidgetMigration.Text.Split

/-!
# Wildcard patterns

The pattern language in which source files are looked for. `?` stands for one character, `*` for any
number of them, a bracketed set for one of its characters or, with `!` in front, for one that is not
in it. `**` stands for any number of directories and has to be a whole part of the path. A pattern
is read twice: once as a whole, then part by part between the slashes. The two readings differ where
a set holds a slash, so each can find a fault that the other does not.

`escape` spells a text so that it stands for itself.
-/

namespace WidgetMigration.Wildcard

/-- Some of the characters of a set. -/
inductive CharRange where
  | single (c : Char)
  | range (first last : Char)
  deriving DecidableEq, Repr

/-- Whether a character belongs to a part of a set. -/
def CharRange.has (c : Char) : CharRange → Bool
  | .single a => c == a
  | .range a b => decide (a ≤ c) && decide (c ≤ b)

/-- An element of a pattern. -/
inductive Token where
  | char (c : Char)
  | anyChar
  | anyRun
  | anyDirectories
  | oneOf (set : List CharRange)
  | noneOf (set : List CharRange)
  deriving DecidableEq, Repr

/-! ## Faults -/

/-- What can be wrong with a pattern. -/
inductive Fault where
  /-- Three stars or more in a row. -/
  | tooManyStars
  /-- Two stars next to something other than a slash. -/
  | partialRecursion
  /-- A bracket that does not open a set. -/
  | invalidSet
  deriving DecidableEq, Repr

/-- How a fault is told. -/
def Fault.message : Fault → String
  | .tooManyStars => "wildcards are either regular `*` or recursive `**`"
  | .partialRecursion => "recursive wildcards must form a single path component"
  | .invalidSet => "invalid range pattern"

/-- A fault, and the number of characters before the place where it shows. -/
structure PatternError where
  position : Nat
  fault : Fault
  deriving DecidableEq, Repr

/-- How a wrong pattern is told. -/
def PatternError.message (e : PatternError) : String :=
  "Pattern syntax error near position " ++ toString e.position ++ ": " ++ e.fault.message

/-! ## Reading -/

/-- Reads the inside of a set. Three characters with a dash in the middle are a range. -/
def readRanges : List Char → List CharRange
  | a :: '-' :: b :: s => .range a b :: readRanges s
  | a :: s => .single a :: readRanges s
  | [] => []

/-- The inside of a set up to its closing bracket, and what stands behind it. The first character
belongs to the set, whatever it is. -/
def cutSet : List Char → Option (List Char × List Char)
  | [] => none
  | first :: s =>
    match s.dropWhile (· != ']') with
    | [] => none
    | _ :: rest => some (first :: s.takeWhile (· != ']'), rest)

/-- Reads a set behind its opening bracket. -/
def readSet : List Char → Option (Token × List Char)
  | '!' :: s => (cutSet s).map fun (inside, rest) => (.noneOf (readRanges inside), rest)
  | s => (cutSet s).map fun (inside, rest) => (.oneOf (readRanges inside), rest)

theorem length_cutSet_lt {s : List Char} {r : List Char × List Char} (h : cutSet s = some r) :
    r.2.length < s.length := by
  unfold cutSet at h
  split at h
  · simp at h
  · rename_i first s
    split at h
    · simp at h
    · rename_i hd
      obtain rfl := Option.some.inj h
      have := (List.dropWhile_sublist (l := s) (p := (· != ']'))).length_le
      rw [hd] at this
      simp only [List.length_cons] at this ⊢
      omega

theorem length_readSet_lt {s : List Char} {r : Token × List Char} (h : readSet s = some r) :
    r.2.length < s.length := by
  unfold readSet at h
  split at h
  · obtain ⟨x, hx, rfl⟩ := Option.map_eq_some_iff.1 h
    have := length_cutSet_lt hx
    simp only [List.length_cons]
    omega
  · obtain ⟨x, hx, rfl⟩ := Option.map_eq_some_iff.1 h
    exact length_cutSet_lt hx

/-- Reads the elements of a pattern. `position` characters stand before `s`, the last of which is
`before`. -/
def readTokens (position : Nat) (before : Option Char) (s : List Char) :
    Except PatternError (List Token) :=
  match s with
  | [] => .ok []
  | '?' :: s => (readTokens (position + 1) (some '?') s).map (.anyChar :: ·)
  | '*' :: '*' :: '*' :: _ => .error ⟨position + 2, .tooManyStars⟩
  | '*' :: '*' :: s =>
    if before = none ∨ before = some '/' then
      match s with
      | [] => .ok [.anyDirectories]
      | '/' :: s => (readTokens (position + 3) (some '/') s).map (.anyDirectories :: ·)
      | _ => .error ⟨position + 2, .partialRecursion⟩
    else .error ⟨position - 1, .partialRecursion⟩
  | '*' :: s => (readTokens (position + 1) (some '*') s).map (.anyRun :: ·)
  | '[' :: s =>
    match h : readSet s with
    | none => .error ⟨position, .invalidSet⟩
    | some r =>
      have := length_readSet_lt h
      (readTokens (position + 1 + (s.length - r.2.length)) (some ']') r.2).map (r.1 :: ·)
  | c :: s => (readTokens (position + 1) (some c) s).map (.char c :: ·)
termination_by s.length

/-- A part of a pattern, which stands for one name or, if it is recursive, for any number of
directories. -/
inductive Part where
  /-- A part without wildcards. -/
  | literal (name : List Char)
  | recursive
  | wildcard (tokens : List Token)
  deriving DecidableEq, Repr

/-- The characters of a part without wildcards. -/
def literal? : List Token → Option (List Char)
  | [] => some []
  | .char c :: tokens => (literal? tokens).map (c :: ·)
  | _ :: _ => none

/-- The part with some elements. -/
def Part.ofTokens (tokens : List Token) : Part :=
  match literal? tokens with
  | some name => .literal name
  | none => if tokens.contains .anyDirectories then .recursive else .wildcard tokens

/-- Reads one part of a pattern. -/
def Part.read (s : List Char) : Except PatternError Part :=
  (readTokens 0 none s).map Part.ofTokens

/-- Reads parts, up to the first fault. -/
def readParts : List (List Char) → Except PatternError (List Part)
  | [] => .ok []
  | s :: parts =>
    match Part.read s with
    | .error e => .error e
    | .ok part => (readParts parts).map (part :: ·)

/-- Recursive parts that follow each other stand for the same as one of them. -/
def mergeRecursive : List Part → List Part
  | .recursive :: .recursive :: parts => mergeRecursive (.recursive :: parts)
  | part :: parts => part :: mergeRecursive parts
  | [] => []

/-- A pattern for paths: whether it begins at the top of the tree, what it says about each step, and
whether only directories match. -/
structure Pattern where
  absolute : Bool
  parts : List Part
  directoriesOnly : Bool
  deriving DecidableEq, Repr

/-- The texts between the slashes of a relative pattern. A slash at the end ends the last part. -/
def partTexts (s : List Char) : List (List Char) :=
  let texts := splitOn '/' s
  if texts.getLast? = some [] then texts.dropLast else texts

/-- Reads a pattern. -/
def Pattern.parse (text : String) : Except PatternError Pattern :=
  let s := text.toList
  match readTokens 0 none s with
  | .error e => .error e
  | .ok _ =>
    let absolute := s.head? == some '/'
    (readParts (partTexts (if absolute then s.drop 1 else s))).map fun parts =>
      { absolute := absolute
        parts := mergeRecursive parts
        directoriesOnly := s.getLast? == some '/' }

/-! ## Escaping -/

/-- Whether a character means something in a pattern. -/
def isSpecial (c : Char) : Bool :=
  c == '?' || c == '*' || c == '[' || c == ']'

/-- Spells a text so that it stands for itself. -/
def escape (s : String) : String :=
  String.ofList (s.toList.flatMap fun c => if isSpecial c then ['[', c, ']'] else [c])

/-! ## Matching -/

/-- Whether a name has the form that some elements describe. -/
def matchTokens : List Token → List Char → Bool
  | [], s => s.isEmpty
  | .char a :: tokens, c :: s => a == c && matchTokens tokens s
  | .anyChar :: tokens, _ :: s => matchTokens tokens s
  | .oneOf set :: tokens, c :: s => set.any (CharRange.has c) && matchTokens tokens s
  | .noneOf set :: tokens, c :: s => !set.any (CharRange.has c) && matchTokens tokens s
  | .anyRun :: tokens, [] => matchTokens tokens []
  | .anyRun :: tokens, c :: s => matchTokens tokens (c :: s) || matchTokens (.anyRun :: tokens) s
  | _ :: _, _ => false

/-- Whether a part stands for a name. -/
def Part.accepts : Part → List Char → Bool
  | .literal name, s => name == s
  | .recursive, _ => false
  | .wildcard tokens, s => matchTokens tokens s

/-- Whether a part begins with a dot that is written out. -/
def Part.leadsWithDot : Part → Bool
  | .wildcard (.char '.' :: _) => true
  | _ => false

end WidgetMigration.Wildcard
