import WireCodec.Decimal
import WireCodec.Ieee

/-!
# The shortest decimal that reads back

A 64-bit floating point number is written with the fewest decimal digits from which it can be
read back, that is, which round to it; of several such decimals the nearest to the number is
taken, and the upper one of two that are equally near.

The numbers that round to `m * 2 ^ q` form an interval around it
(`WireCodec.Decimal.Interval`): it reaches half way to the neighbours on both sides, and its ends
belong to it when `m` is even. For one digit, two digits and so on,
`WireCodec.Decimal.Interval.onGrid?` looks at the two decimals with that many digits next to the
number; the first count of digits for which one of them lies in the interval wins. If any decimal
of a length lies in the interval, one of these two does, so no shorter one is missed.
-/

namespace WireCodec.Decimal

/-- **The numbers that round to a floating point number**, as fractions over one denominator. -/
structure Interval where
  /-- The numerator of the lower end. -/
  low : Nat
  /-- The numerator of the number itself. -/
  value : Nat
  /-- The numerator of the upper end. -/
  high : Nat
  /-- The common denominator. -/
  denominator : Nat
  /-- Both ends belong to the interval. -/
  closed : Bool
deriving DecidableEq, Repr

namespace Interval

/-- The interval with every number in it divided by `10 ^ exponent`. -/
def scale (i : Interval) (exponent : Int) : Interval :=
  if 0 ≤ exponent then { i with denominator := i.denominator * 10 ^ exponent.toNat }
  else
    let factor := 10 ^ (-exponent).toNat
    { i with low := i.low * factor, value := i.value * factor, high := i.high * factor }

/-- The natural number `n` lies in the interval. -/
def contains (i : Interval) (n : Nat) : Bool :=
  let numerator := n * i.denominator
  if i.closed then i.low ≤ numerator && numerator ≤ i.high
  else i.low < numerator && numerator < i.high

/-- The natural number next to the value of the interval, below or above it, that lies in the
interval: the nearer one if both do, and the upper one if they are equally near. -/
def nearest? (i : Interval) : Option Nat :=
  let below := i.value / i.denominator
  let above := below + 1
  match i.contains below, i.contains above with
  | true, true =>
    if i.value - below * i.denominator < above * i.denominator - i.value then some below
    else some above
  | true, false => some below
  | false, true => some above
  | false, false => none

/-- The multiple of `10 ^ exponent` next to the value that lies in the interval. -/
def onGrid? (i : Interval) (exponent : Int) : Option Decimal :=
  (i.scale exponent).nearest?.map fun n => ⟨n, exponent⟩

/-- How many digits the value has before the point, if it is at least one; otherwise zero, less
the number of zeros after the point. -/
def magnitude (i : Interval) : Int :=
  if i.denominator ≤ i.value then (natText (i.value / i.denominator)).length
  else 1 - ((natText ((i.denominator - 1) / i.value)).length : Int)

/-- The first decimal in the interval, on the grids of one to `count` digits after the first
`start` ones. -/
def search (i : Interval) (start : Nat) : (count : Nat) → Option Decimal
  | 0 => none
  | count + 1 =>
    match i.onGrid? (i.magnitude - (start + 1 : Nat)) with
    | some d => some d
    | none => search i (start + 1) count

end Interval

/-- The numbers that round to `mantissa * 2 ^ exponent`, for a mantissa of `53` bits, or of fewer
at the smallest exponent. Below a power of two the next number is only half as far away as
above it. -/
def interval (mantissa : Nat) (exponent : Int) : Interval :=
  let below := if mantissa = 2 ^ 52 then 1 else 2
  let factor := 2 ^ (exponent - 2).toNat
  { low := (4 * mantissa - below) * factor
    value := 4 * mantissa * factor
    high := (4 * mantissa + 2) * factor
    denominator := 2 ^ (2 - exponent).toNat
    closed := mantissa % 2 == 0 }

/-- **The shortest decimal that reads back** as the positive number `mantissa * 2 ^ exponent`,
given with any mantissa below `2 ^ 53`. Seventeen digits are always enough. -/
def shortest (mantissa : Nat) (exponent : Int) : Decimal :=
  let places := min (52 - mantissa.log2) (exponent + 1074).toNat
  let i := interval (mantissa * 2 ^ places) (exponent - places)
  ((i.search 0 17).getD ⟨mantissa, exponent⟩).stripZeros 17

end WireCodec.Decimal

namespace WireCodec

/-- **The text of a floating point number**: the shortest decimal that reads back, written
plainly and with its sign. -/
def FloatValue.text : FloatValue → List Char
  | .nan => "NaN".toList
  | .infinite negative => (if negative then "-inf" else "inf").toList
  | .finite negative mantissa exponent =>
    let digits := if mantissa = 0 then ['0'] else (Decimal.shortest mantissa exponent).plainText
    if negative then '-' :: digits else digits

end WireCodec
