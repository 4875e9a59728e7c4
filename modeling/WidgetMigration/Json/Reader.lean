import WidgetMigration.Json.Free
import WidgetMigration.Text.Scan

/-!
# Reading JSON

A reader for JSON text of any layout: blanks may stand between the tokens, strings may use every
escape, a pair of surrogates included, and numbers may have a fraction and an exponent. It refuses
what the grammar refuses, such as a comma before a closing bracket, a zero before other digits or a
control character in a string, and text behind the value.

A number without fraction and exponent is a whole number of any size, only minus zero is not; every
other number is rounded to 53 bits.

The recursion is bounded by the length of the text, which no nesting can exceed.
-/

namespace WidgetMigration.Json

open WidgetMigration.Text

/-- The characters that may stand between tokens. -/
def isFiller (c : Char) : Bool :=
  c == ' ' || c == '\t' || c == '\n' || c == '\r'

/-- A text from its first token on. -/
def skipFiller (s : List Char) : List Char :=
  s.dropWhile isFiller

/-! ## Strings -/

/-- The value of a hexadecimal digit. -/
def hexValue? (c : Char) : Option Nat :=
  if '0' ≤ c ∧ c ≤ '9' then some (c.toNat - '0'.toNat)
  else if 'a' ≤ c ∧ c ≤ 'f' then some (c.toNat - 'a'.toNat + 10)
  else if 'A' ≤ c ∧ c ≤ 'F' then some (c.toNat - 'A'.toNat + 10)
  else none

/-- Reads four hexadecimal digits. -/
def readUnit : List Char → Option (Nat × List Char)
  | a :: b :: c :: d :: s => do
    let a ← hexValue? a
    let b ← hexValue? b
    let c ← hexValue? c
    let d ← hexValue? d
    some (a * 4096 + b * 256 + c * 16 + d, s)
  | _ => none

/-- Reads the character that four hexadecimal digits stand for, or a pair of surrogates. -/
def readCodePoint (s : List Char) : Option (Char × List Char) :=
  (readUnit s).bind fun (high, s) =>
    if high < 0xD800 ∨ 0xE000 ≤ high then some (Char.ofNat high, s)
    else if 0xDC00 ≤ high then none
    else
      match s with
      | '\\' :: 'u' :: s =>
        (readUnit s).bind fun (low, s) =>
          if 0xDC00 ≤ low ∧ low < 0xE000 then
            some (Char.ofNat (0x10000 + (high - 0xD800) * 0x400 + (low - 0xDC00)), s)
          else none
      | _ => none

/-- Reads what an escape stands for, behind its backslash. -/
def readEscape : List Char → Option (Char × List Char)
  | '"' :: s => some ('"', s)
  | '\\' :: s => some ('\\', s)
  | '/' :: s => some ('/', s)
  | 'b' :: s => some ('\x08', s)
  | 'f' :: s => some ('\x0c', s)
  | 'n' :: s => some ('\n', s)
  | 'r' :: s => some ('\r', s)
  | 't' :: s => some ('\t', s)
  | 'u' :: s => readCodePoint s
  | _ => none

/-- Reads a string behind its opening quote, if it has at most `size` characters. -/
def readString : (size : Nat) → List Char → Option (List Char × List Char)
  | _, [] => none
  | 0, c :: s => if c = '"' then some ([], s) else none
  | size + 1, c :: s =>
    if c = '"' then some ([], s)
    else if c = '\\' then
      (readEscape s).bind fun (e, s) => (readString size s).map fun (t, s) => (e :: t, s)
    else if c.toNat < 0x20 then none
    else (readString size s).map fun (t, s) => (c :: t, s)

/-! ## Numbers -/

/-- The natural number that some digits stand for. -/
def natOfDigits (ds : List Char) : Nat :=
  ds.foldl (fun n d => n * 10 + (d.toNat - '0'.toNat)) 0

/-- Takes one or more digits from the head of a text. -/
def readDigits (s : List Char) : Option (List Char × List Char) :=
  match s.takeWhile Char.isDigit with
  | [] => none
  | ds => some (ds, s.dropWhile Char.isDigit)

/-- Takes digits that have no needless zero before them. -/
def readWhole (s : List Char) : Option (List Char × List Char) :=
  (readDigits s).bind fun (ds, s) =>
    match ds with
    | '0' :: _ :: _ => none
    | _ => some (ds, s)

/-- Takes a fraction, if there is one. -/
def readFraction : List Char → Option (List Char × List Char)
  | '.' :: s => readDigits s
  | s => some ([], s)

/-- Takes the digits of an exponent, with or without a sign. -/
def readExponentDigits : List Char → Option (Int × List Char)
  | '-' :: s => (readDigits s).map fun (ds, s) => (-(natOfDigits ds : Int), s)
  | '+' :: s => (readDigits s).map fun (ds, s) => ((natOfDigits ds : Int), s)
  | s => (readDigits s).map fun (ds, s) => ((natOfDigits ds : Int), s)

/-- Takes an exponent, if there is one. -/
def readExponent : List Char → Option (Option Int × List Char)
  | 'e' :: s => (readExponentDigits s).map fun (e, s) => (some e, s)
  | 'E' :: s => (readExponentDigits s).map fun (e, s) => (some e, s)
  | s => some (none, s)

/-- Reads a number without its sign. -/
def readSize (negative : Bool) (s : List Char) : Option (Json × List Char) :=
  (readWhole s).bind fun (whole, s) =>
  (readFraction s).bind fun (fraction, s) =>
  (readExponent s).bind fun (exponent, s) =>
    if fraction = [] ∧ exponent = none ∧ ¬(negative = true ∧ natOfDigits whole = 0) then
      some (.int (if negative then -(natOfDigits whole) else natOfDigits whole), s)
    else (realOfNumeral negative whole fraction (exponent.getD 0)).map fun v => (v, s)

/-- Reads a number. -/
def readNumber : List Char → Option (Json × List Char)
  | '-' :: s => readSize true s
  | s => readSize false s

/-! ## Values -/

mutual

/-- Reads a value from its first character on, going at most `depth` calls deep. -/
def readValue : (depth : Nat) → List Char → Option (Json × List Char)
  | 0, _ => none
  | depth + 1, s =>
    match s with
    | [] => none
    | c :: rest =>
      if c = '"' then (readString rest.length rest).map fun (t, s) => (.string (String.ofList t), s)
      else if c = '[' then
        match skipFiller rest with
        | ']' :: s => some (.array [], s)
        | s => (readItems depth s).map fun (items, s) => (.array items, s)
      else if c = '\x7b' then
        match skipFiller rest with
        | '\x7d' :: s => some (.object [], s)
        | s => (readMembers depth s).map fun (members, s) => (.object members, s)
      else if c = 'n' then (afterWord "ull".toList rest).map fun s => (.null, s)
      else if c = 't' then (afterWord "rue".toList rest).map fun s => (.bool true, s)
      else if c = 'f' then (afterWord "alse".toList rest).map fun s => (.bool false, s)
      else readNumber s

/-- Reads one item or more, and the closing bracket of the array. -/
def readItems : (depth : Nat) → List Char → Option (List Json × List Char)
  | 0, _ => none
  | depth + 1, s =>
    (readValue depth s).bind fun (v, s) =>
      match skipFiller s with
      | ',' :: s => (readItems depth (skipFiller s)).map fun (items, s) => (v :: items, s)
      | ']' :: s => some ([v], s)
      | _ => none

/-- Reads one member or more, and the closing brace of the object. -/
def readMembers : (depth : Nat) → List Char → Option (List (String × Json) × List Char)
  | 0, _ => none
  | depth + 1, s =>
    match s with
    | '"' :: s =>
      (readString s.length s).bind fun (k, s) =>
        match skipFiller s with
        | ':' :: s =>
          (readValue depth (skipFiller s)).bind fun (v, s) =>
            match skipFiller s with
            | ',' :: s =>
              (readMembers depth (skipFiller s)).map fun (members, s) =>
                ((String.ofList k, v) :: members, s)
            | '\x7d' :: s => some ([(String.ofList k, v)], s)
            | _ => none
        | _ => none
    | _ => none

end

/-- The value that a JSON text stands for, if it is one. -/
def read? (text : String) : Option Json :=
  let s := text.toList
  (readValue (s.length + 1) (skipFiller s)).bind fun (v, rest) =>
    if skipFiller rest = [] then some v else none

end WidgetMigration.Json
