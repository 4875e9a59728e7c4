import WidgetMigration.Json.Value

/-!
# Numbers of 53 bits

A number that is not whole is held to the precision of a binary floating point number: `m · 2 ^ q`
with `m < 2 ^ 53` and `-1074 ≤ q ≤ 971`. `Binary64.roundRatio` rounds a ratio of natural numbers to
the nearest such number, a tie to the even one. `Binary64.shortest` goes back to decimal notation:
the fewest digits that round to the number, and of those the nearest to it.

A numeral is not rounded in one step. Its digits and its power of ten are rounded first and their
product or quotient after that (`Binary64.ofNumeral`), so a numeral of more than fifteen digits can
end up at a neighbour of the nearest number.
-/

namespace WidgetMigration

/-- The number `m · 2 ^ q`. -/
structure Binary64 where
  m : Nat
  q : Int
  deriving DecidableEq, Repr

namespace Binary64

/-- Zero. -/
def zero : Binary64 := ⟨0, -1074⟩

/-- The first natural number with more than 53 bits. -/
def precision : Nat := Nat.pow 2 53

/-- `num / den`, times `2 ^ q`, as a ratio. -/
def scale (num den : Nat) (q : Int) : Nat × Nat :=
  if 0 ≤ q then (num * Nat.pow 2 q.toNat, den) else (num, den * Nat.pow 2 (-q).toNat)

/-- The nearest whole number to a ratio; a tie goes to the even one. -/
def roundHalfEven (num den : Nat) : Nat :=
  let whole := num / den
  let twice := 2 * (num % den)
  if twice < den then whole
  else if den < twice then whole + 1
  else whole + whole % 2

/-- The number nearest to `num / den`; nothing if that is too large. -/
def roundRatio (num den : Nat) : Option Binary64 :=
  if num = 0 then some zero
  else
    -- the ratio lies between `2 ^ (size - 1)` and `2 ^ (size + 1)`
    let size : Int := (num.log2 : Int) - den.log2
    let low := scale num den (53 - size)
    let q := max (if low.1 / low.2 < precision then size - 53 else size - 52) (-1074)
    let r := scale num den (-q)
    let m := roundHalfEven r.1 r.2
    let n : Binary64 := if m = precision then ⟨precision / 2, q + 1⟩ else ⟨m, q⟩
    if n.q ≤ 971 then some n else none

/-- The value as a ratio. -/
def ratio (x : Binary64) : Nat × Nat := scale x.m 1 x.q

/-- The rounded product of two numbers. -/
def mul (x y : Binary64) : Option Binary64 :=
  roundRatio (x.ratio.1 * y.ratio.1) (x.ratio.2 * y.ratio.2)

/-- The rounded quotient of two numbers, the second one not zero. -/
def div (x y : Binary64) : Option Binary64 :=
  roundRatio (x.ratio.1 * y.ratio.2) (x.ratio.2 * y.ratio.1)

/-- Divides by a power of ten, by `10 ^ 308` at a time. After four such steps nothing is left of
any number that digits can give. -/
def divPower : Nat → Nat → Binary64 → Option Binary64
  | 0, _, _ => some zero
  | steps + 1, exponent, x =>
    if exponent ≤ 308 then (roundRatio (Nat.pow 10 exponent) 1).bind x.div
    else ((roundRatio (Nat.pow 10 308) 1).bind x.div).bind (divPower steps (exponent - 308))

/-- The number that `digits · 10 ^ exponent` stands for; nothing if it is too large. -/
def ofNumeral (digits : Nat) (exponent : Int) : Option Binary64 :=
  (roundRatio digits 1).bind fun x =>
    if 0 ≤ exponent then
      if exponent ≤ 308 then (roundRatio (Nat.pow 10 exponent.toNat) 1).bind x.mul
      else if x.m = 0 then some zero
      else none
    else divPower 4 (-exponent).toNat x

/-- Twice the distance between two ratios, over a common denominator that is not given. -/
def distance (a b : Nat × Nat) : Nat :=
  let x := a.1 * b.2
  let y := b.1 * a.2
  (x - y) + (y - x)

/-- The multiple of `10 ^ exponent` that rounds to `x` and is nearest to it, if there is one. -/
def onGrid? (x : Binary64) (exponent : Int) : Option Nat :=
  let grid (n : Nat) : Nat × Nat :=
    if 0 ≤ exponent then (n * Nat.pow 10 exponent.toNat, 1) else (n, Nat.pow 10 (-exponent).toNat)
  let r := x.ratio
  let unit := grid 1
  let below := (r.1 * unit.2) / (r.2 * unit.1)
  let hit (n : Nat) : Bool := roundRatio (grid n).1 (grid n).2 == some x
  match hit below, hit (below + 1) with
  | true, true =>
    let d := distance (grid below) r
    let d' := distance (grid (below + 1)) r
    some (if d < d' ∨ (d = d' ∧ below % 2 = 0) then below else below + 1)
  | true, false => some below
  | false, true => some (below + 1)
  | false, false => none

/-- The digits and the exponent of a number that is not zero, with `n` digits if that is enough,
else with more. -/
def shortestFrom (x : Binary64) (top : Int) : Nat → Nat → Nat × Int
  | 0, n => (0, top - n)
  | more + 1, n =>
    match x.onGrid? (top - n) with
    | some digits => (digits, top - n)
    | none => shortestFrom x top more (n + 1)

/-- Moves zeros at the end of the digits to the exponent. -/
def dropZeros : Nat → Nat × Int → Nat × Int
  | 0, d => d
  | more + 1, d => if d.1 % 10 = 0 then dropZeros more (d.1 / 10, d.2 + 1) else d

/-- The shortest decimal notation of a number. -/
def shortest (x : Binary64) (negative : Bool) : Decimal :=
  if x.m = 0 then ⟨negative, 0, 0⟩
  else
    let r := x.ratio
    -- the number of digits before the point, or less than zero for as many zeros behind it
    let top : Int :=
      if r.2 ≤ r.1 then (Nat.toDigits 10 (r.1 / r.2)).length
      else 1 - (Nat.toDigits 10 ((r.2 - 1) / r.1)).length
    let d := dropZeros 17 (x.shortestFrom top 19 1)
    ⟨negative, d.1, d.2⟩

end Binary64

end WidgetMigration
