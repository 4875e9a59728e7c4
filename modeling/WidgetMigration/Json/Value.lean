/-!
# JSON values

The values that an envelope is made of. The members of an object keep their order, which is the
order in which they are printed.

Whole numbers and other numbers are different values: `1` and `1.0` are printed differently and are
not equal.
-/

namespace WidgetMigration

/-- A number in decimal notation: `digits · 10 ^ exponent`, negated if `negative` says so. Zero has
a sign, too. -/
structure Decimal where
  negative : Bool
  digits : Nat
  exponent : Int
  deriving DecidableEq, Repr

/-- A JSON value. -/
inductive Json where
  | null
  | bool (b : Bool)
  | int (n : Int)
  | real (d : Decimal)
  | string (s : String)
  | array (items : List Json)
  | object (members : List (String × Json))
  deriving Repr

namespace Json

/-- A count. -/
def nat (n : Nat) : Json := .int n

/-- The value of the member with the given key; of several, the first. -/
def member? (key : String) : Json → Option Json
  | .object members => members.lookup key
  | _ => none

/-- A list of texts as JSON. -/
def strings (texts : List String) : Json :=
  .array (texts.map .string)

end Json

end WidgetMigration
