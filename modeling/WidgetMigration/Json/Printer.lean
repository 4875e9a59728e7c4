import WidgetMigration.Json.Value

/-!
# The printed form of JSON values

Objects and arrays that are not empty take a line for each member or item, indented by two spaces a
level; empty ones are a pair of brackets. There is no line feed at the end.

In a string only the quote, the backslash and the control characters below U+0020 are escaped, five
of those by a letter and the others by four lower-case hexadecimal digits. Everything else is
written as it is, the solidus, U+007F and the line separators included.

A number that is not whole always shows that it is not: it has a point or an exponent. It is written
positionally as long as the point falls within sixteen digits and at most four zeros follow it before
the first digit. An exponent always has a sign.
-/

namespace WidgetMigration.Json

/-- The digits of a natural number. -/
def natDigits (n : Nat) : List Char :=
  Nat.toDigits 10 n

/-- The written form of a whole number. -/
def printInt : Int → List Char
  | .ofNat n => natDigits n
  | .negSucc n => '-' :: natDigits (n + 1)

/-- The written form of the size of a number: `digits · 10 ^ exponent`, `digits` not being zero. The
point stands behind as many digits as `point` says. -/
def printSize (digits : Nat) (exponent : Int) : List Char :=
  let ds := natDigits digits
  let point : Int := ds.length + exponent
  if 0 ≤ exponent ∧ point ≤ 16 then
    ds ++ List.replicate exponent.toNat '0' ++ ".0".toList
  else if 0 < point ∧ point ≤ 16 then
    ds.take point.toNat ++ '.' :: ds.drop point.toNat
  else if -5 < point ∧ point ≤ 0 then
    "0.".toList ++ List.replicate (-point).toNat '0' ++ ds
  else
    let fraction := if ds.length = 1 then [] else '.' :: ds.drop 1
    let sign := if 0 < point then ['+'] else []
    ds.take 1 ++ fraction ++ ['e'] ++ sign ++ printInt (point - 1)

/-- The written form of a number that is not whole. -/
def printDecimal (d : Decimal) : List Char :=
  let size := if d.digits = 0 then "0.0".toList else printSize d.digits d.exponent
  if d.negative then '-' :: size else size

/-- A hexadecimal digit, in lower case. -/
def hexDigit (n : Nat) : Char :=
  (Nat.toDigits 16 n).headD '0'

/-- How a character is written inside a string. -/
def escapeChar (c : Char) : List Char :=
  if c = '"' then ['\\', '"']
  else if c = '\\' then ['\\', '\\']
  else if c = '\n' then ['\\', 'n']
  else if c = '\r' then ['\\', 'r']
  else if c = '\t' then ['\\', 't']
  else if c = '\x08' then ['\\', 'b']
  else if c = '\x0c' then ['\\', 'f']
  else if c.toNat < 0x20 then
    ['\\', 'u', '0', '0', hexDigit (c.toNat / 16), hexDigit (c.toNat % 16)]
  else [c]

/-- The written form of a string. -/
def printString (s : String) : List Char :=
  '"' :: s.toList.flatMap escapeChar ++ ['"']

/-- A new line, indented for a level. -/
def newLine (level : Nat) : List Char :=
  '\n' :: List.replicate (2 * level) ' '

mutual

/-- The printed form of a value that stands at a level. -/
def print (level : Nat) : Json → List Char
  | .null => "null".toList
  | .bool true => "true".toList
  | .bool false => "false".toList
  | .int n => printInt n
  | .real d => printDecimal d
  | .string s => printString s
  | .array [] => ['[', ']']
  | .array (v :: items) =>
    '[' :: newLine (level + 1) ++ print (level + 1) v ++ printItems (level + 1) items ++
      newLine level ++ [']']
  | .object [] => ['\x7b', '\x7d']
  | .object ((k, v) :: members) =>
    '\x7b' :: newLine (level + 1) ++ printString k ++ [':', ' '] ++ print (level + 1) v ++
      printMembers (level + 1) members ++ newLine level ++ ['\x7d']

/-- The items of an array behind the first, each with the comma before it. -/
def printItems (level : Nat) : List Json → List Char
  | [] => []
  | v :: items => ',' :: newLine level ++ print level v ++ printItems level items

/-- The members of an object behind the first, each with the comma before it. -/
def printMembers (level : Nat) : List (String × Json) → List Char
  | [] => []
  | (k, v) :: members =>
    ',' :: newLine level ++ printString k ++ [':', ' '] ++ print level v ++
      printMembers level members

end

/-- The printed form of a value. -/
def pretty (v : Json) : String :=
  String.ofList (v.print 0)

end WidgetMigration.Json
