import WireCodec.Power

/-!
# Binary floating point patterns

The patterns of the two interchange formats, `WireCodec.Binary32` and `WireCodec.Binary64`, as
words: from the top a sign bit, an exponent field and a significand field. A pattern is kept as
it is, so that a NaN does not lose its payload on the way through a field.

`WireCodec.FloatValue` is what a pattern stands for: a NaN, an infinity, or a sign with an exact
magnitude `mantissa * 2 ^ exponent`.
-/

namespace WireCodec

/-- **What a floating point pattern stands for.** -/
inductive FloatValue
  /-- No number. -/
  | nan
  /-- An infinity. -/
  | infinite (negative : Bool)
  /-- The number `mantissa * 2 ^ exponent`, or its negative. Zero has a sign too. -/
  | finite (negative : Bool) (mantissa : Nat) (exponent : Int)
deriving DecidableEq, Repr

/-- The value of a sign, an exponent field and a significand field, in a format with `ebits`
exponent bits and `sbits` significand bits: the exponent field is biased by `2 ^ (ebits - 1) - 1`,
zero marks the numbers without an implied leading one, and all ones mark infinities and NaNs. -/
def FloatValue.ofFields (ebits sbits : Nat) (negative : Bool) (exponent significand : Nat) :
    FloatValue :=
  let lowest : Int := 2 - 2 ^ (ebits - 1) - sbits
  if exponent = 2 ^ ebits - 1 then
    if significand = 0 then .infinite negative else .nan
  else if exponent = 0 then .finite negative significand lowest
  else .finite negative (2 ^ sbits + significand) (lowest + (exponent - 1))

/-! ### 32 bits -/

/-- **A 32-bit floating point pattern.** -/
structure Binary32 where
  /-- The word. -/
  bits : UInt32
deriving DecidableEq, Repr

namespace Binary32

/-- The sign bit. -/
def negative (x : Binary32) : Bool :=
  x.bits.toNat.testBit 31

/-- The exponent field, below `256`. -/
def exponent (x : Binary32) : Nat :=
  x.bits.toNat / 2 ^ 23 % 2 ^ 8

/-- The significand field, below `2 ^ 23`. -/
def significand (x : Binary32) : Nat :=
  x.bits.toNat % 2 ^ 23

/-- The pattern with the given fields. -/
def ofFields (negative : Bool) (exponent significand : Nat) : Binary32 :=
  ⟨UInt32.ofNat (negative.toNat * 2 ^ 31 + exponent * 2 ^ 23 + significand)⟩

/-- What the pattern stands for. -/
def value (x : Binary32) : FloatValue :=
  .ofFields 8 23 x.negative x.exponent x.significand

/-- **The pattern is a normal number or a zero**: neither an infinity nor a NaN nor a number
without the implied leading one. -/
def isRegular (x : Binary32) : Bool :=
  !(x.exponent == 255 || (x.exponent == 0 && x.significand != 0))

end Binary32

/-! ### 64 bits -/

/-- **A 64-bit floating point pattern.** -/
structure Binary64 where
  /-- The word. -/
  bits : UInt64
deriving DecidableEq, Repr

namespace Binary64

/-- The sign bit. -/
def negative (x : Binary64) : Bool :=
  x.bits.toNat.testBit 63

/-- The exponent field, below `2048`. -/
def exponent (x : Binary64) : Nat :=
  x.bits.toNat / 2 ^ 52 % 2 ^ 11

/-- The significand field, below `2 ^ 52`. -/
def significand (x : Binary64) : Nat :=
  x.bits.toNat % 2 ^ 52

/-- The pattern with the given fields. -/
def ofFields (negative : Bool) (exponent significand : Nat) : Binary64 :=
  ⟨UInt64.ofNat (negative.toNat * 2 ^ 63 + exponent * 2 ^ 52 + significand)⟩

/-- What the pattern stands for. -/
def value (x : Binary64) : FloatValue :=
  .ofFields 11 52 x.negative x.exponent x.significand

/-- **The pattern is a normal number or a zero**: neither an infinity nor a NaN nor a number
without the implied leading one. -/
def isRegular (x : Binary64) : Bool :=
  !(x.exponent == 2047 || (x.exponent == 0 && x.significand != 0))

/-- **The pattern of `mantissa * 2 ^ exponent`**, or of its negative, for a magnitude that has
one: at most `53` significant bits, from `2 ^ (-1074)` on and below `2 ^ 1024`. -/
def ofMagnitude (negative : Bool) (mantissa : Nat) (exponent : Int) : Binary64 :=
  if mantissa = 0 then ofFields negative 0 0
  else
    -- The exponent of the last of 53 bits, but no less than that of the smallest magnitude.
    let last : Int := max (exponent + mantissa.log2 - 52) (-1074)
    let aligned :=
      if last ≤ exponent then mantissa * 2 ^ (exponent - last).toNat
      else mantissa / 2 ^ (last - exponent).toNat
    if aligned < 2 ^ 52 then ofFields negative 0 aligned
    else ofFields negative (last + 1075).toNat (aligned - 2 ^ 52)

end Binary64

/-- What a `Float` stands for. -/
def FloatValue.ofFloat (x : Float) : FloatValue :=
  (⟨x.toBits⟩ : Binary64).value

end WireCodec
