import WireCodec.Decimal.Shortest
import WireCodec.Number

/-!
# Evaluation in 64-bit floating point numbers

The numbers that expressions are evaluated in are `Float`s. Sums, products and quotients are
those of `Float`; what is exact on floating point numbers, namely remainders and rounding to an
integer, is computed exactly from the magnitudes `mantissa * 2 ^ exponent`.
-/

namespace WireCodec

/-! ### Exact operations on floating point values -/

/-- The value is an integer. -/
def FloatValue.isIntegral : FloatValue → Bool
  | .finite _ mantissa exponent => mantissa % 2 ^ (-exponent).toNat == 0
  | _ => false

/-- The floating point number with the given sign and magnitude. -/
def floatOfMagnitude (negative : Bool) (mantissa : Nat) (exponent : Int) : Float :=
  Float.ofBits (Binary64.ofMagnitude negative mantissa exponent).bits

/-- The nearest integral number, away from zero if there are two, with the same sign. -/
def roundFloat (x : Float) : Float :=
  match FloatValue.ofFloat x with
  | .finite negative mantissa exponent =>
    if 0 ≤ exponent then x
    else
      let places := (-exponent).toNat
      floatOfMagnitude negative ((mantissa + 2 ^ (places - 1)) / 2 ^ places) 0
  | _ => x

/-- **The exact remainder** of one number by another, with the sign of the first: the magnitudes
are brought to the lower of the two exponents and divided as naturals. There is no remainder of
an infinity, nor one by zero. -/
def floatRemainder (x y : Float) : Float :=
  match FloatValue.ofFloat x, FloatValue.ofFloat y with
  | .finite _ _ _, .infinite _ => x
  | .finite negative mantissa exponent, .finite _ mantissa' exponent' =>
    if mantissa' = 0 then 0 / 0
    else
      let lower := min exponent exponent'
      let dividend := mantissa * 2 ^ (exponent - lower).toNat
      let divisor := mantissa' * 2 ^ (exponent' - lower).toNat
      floatOfMagnitude negative (dividend % divisor) lower
  | _, _ => 0 / 0

/-- **The floating point number nearest to a decimal.** Decimals that are far above the largest or
below the smallest magnitude are not written out for that. -/
def floatOfDecimal (d : Decimal) : Float :=
  -- The decimal is zero or lies between `10 ^ (top - 1)` and `10 ^ top`.
  let top : Int := d.exponent + (Decimal.natText d.digits).length
  if d.digits = 0 ∨ top < -400 then 0
  else if 400 < top then 1 / 0
  else Float.ofScientific d.digits (d.exponent < 0) d.exponent.natAbs

/-- The least magnitude from which on even an integer is written as a floating point number. -/
def integerTextLimit : Float := 9.0e15

/-- **The text of a length**: that of an integer if it is one and not too large, and the shortest
decimal that reads back otherwise. -/
def floatLengthText (x : Float) : List Char :=
  if (FloatValue.ofFloat x).isIntegral && x.abs < integerTextLimit then
    Decimal.intText x.toInt64.toInt
  else (FloatValue.ofFloat x).text

/-- **Arithmetic in 64-bit floating point numbers.** -/
instance : Number Float where
  remainder := floatRemainder
  power := Float.pow
  ofDecimal := floatOfDecimal
  ofInt := Float.ofInt
  isFinite := Float.isFinite
  isIntegral x := (FloatValue.ofFloat x).isIntegral
  equal x y := x == y
  round := roundFloat
  toInt x := x.toInt64.toInt
  text := floatLengthText

end WireCodec
