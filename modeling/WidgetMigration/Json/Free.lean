import WidgetMigration.Json.Binary64
import WidgetMigration.Json.Printer

/-!
# Free values

A value whose form nobody has fixed, such as the details of a failure that has its own, is held in a
canonical form. The members of an object have no order of their own and are put into the order of
their keys; of members with the same key the last one stays. A whole number that does not fit into 64
bits, with or without sign, is rounded to 53 bits.
-/

namespace WidgetMigration.Json

/-- The first natural number that does not fit into 64 bits. -/
def wordBound : Nat := Nat.pow 2 64

/-- The first digits of a numeral, as many as fit into 64 bits, and how many are left over. -/
def leadingDigits (n : Nat) : List Char → Nat × Nat
  | [] => (n, 0)
  | d :: ds =>
    let next := n * 10 + (d.toNat - '0'.toNat)
    if next < wordBound then leadingDigits next ds else (n, ds.length + 1)

/-- The number of 53 bits that a numeral stands for: the digits before and behind the point, times a
power of ten. There is none if the number is too large. -/
def realOfNumeral (negative : Bool) (whole fraction : List Char) (exponent : Int) : Option Json :=
  let digits := leadingDigits 0 (whole ++ fraction)
  (Binary64.ofNumeral digits.1 (exponent - fraction.length + digits.2)).map fun x =>
    .real (x.shortest negative)

/-- Whether a whole number fits into 64 bits, with or without sign. -/
def fitsWord (n : Int) : Bool :=
  decide (-(wordBound / 2 : Nat) ≤ n) && decide (n < wordBound)

/-- A whole number, rounded if it does not fit into 64 bits. -/
def canonicalInt (n : Int) : Json :=
  if fitsWord n then .int n
  else (realOfNumeral (decide (n < 0)) (natDigits n.natAbs) [] 0).getD (.int n)

/-- Puts a member into members that are in the order of their keys. A member with the same key
gives way. Comparing texts by their characters is comparing them by their UTF-8 bytes. -/
def insertMember (key : String) (value : Json) : List (String × Json) → List (String × Json)
  | [] => [(key, value)]
  | (k, v) :: members =>
    if key < k then (key, value) :: (k, v) :: members
    else if key = k then (key, value) :: members
    else (k, v) :: insertMember key value members

mutual

/-- The canonical form of a free value. -/
def canonical : Json → Json
  | .array items => .array (canonicalItems items)
  | .object members => .object (canonicalMembers [] members)
  | .int n => canonicalInt n
  | v => v

/-- The items of an array, each in canonical form. -/
def canonicalItems : List Json → List Json
  | [] => []
  | v :: items => v.canonical :: canonicalItems items

/-- Adds the members of an object, each in canonical form, to members that are in order already. -/
def canonicalMembers (done : List (String × Json)) : List (String × Json) → List (String × Json)
  | [] => done
  | (k, v) :: members => canonicalMembers (insertMember k v.canonical done) members

end

end WidgetMigration.Json
