import WireCodec.BitField

/-!
# Scaled integers

A real number is stored as an integer: an unsigned field holds `(value - min) * scaler`, a signed
one holds `value * scaler`, rounded half away from zero and clamped to what the field can hold.
A signed field is clamped symmetrically, so it never holds its least pattern.

Signed integers are stored as their two's complement pattern, cut to the width of the field.
-/

namespace WireCodec

/-! ### Unsigned fields -/

/-- **The integer that an unsigned field of `bits` bits holds for `value`.** No number gives
zero. -/
def unsignedOfScaled (value min scaler : Float) (bits : Nat) : UInt64 :=
  let max := maxFieldValue bits
  let scaled := (value - min) * scaler
  if max.toFloat ≤ scaled then max
  else if scaled ≤ 0 then 0
  else (scaled + 0.5).toUInt64

/-- The number that an unsigned field stands for. -/
def scaledOfUnsigned (raw : UInt64) (min scaler : Float) : Float :=
  raw.toFloat / scaler + min

/-! ### Signed fields -/

/-- **The floating point number nearest to a signed word.** Its magnitude is an unsigned word. -/
def floatOfSigned (n : Int64) : Float :=
  if n < 0 then -(UInt64.ofNat n.toInt.natAbs).toFloat else n.toUInt64.toFloat

/-- **A floating point number cut to a signed word**: without its fraction, and clamped to what a
word can hold. No number gives zero. -/
def signedOfFloat (x : Float) : Int64 :=
  if x < 0 then -(min (-x).toUInt64 0x8000000000000000).toInt64
  else (min x.toUInt64 0x7FFFFFFFFFFFFFFF).toInt64

/-- **The integer that a signed field of `bits` bits holds for `value`.** No number gives
zero. -/
def signedOfScaled (value scaler : Float) (bits : Nat) : Int64 :=
  let max := (maxFieldValue (bits - 1)).toInt64
  let scaled := value * scaler
  if floatOfSigned max ≤ scaled then max
  else if scaled ≤ -floatOfSigned max then -max
  else if 0 ≤ scaled then signedOfFloat (scaled + 0.5)
  else signedOfFloat (scaled - 0.5)

/-- The number that a signed field stands for. -/
def scaledOfSigned (raw : Int64) (scaler : Float) : Float :=
  floatOfSigned raw / scaler

/-! ### Two's complement -/

/-- **The pattern of a signed integer in `bits` bits**: the integer modulo `2 ^ bits`. -/
def twosComplement (value : Int64) (bits : Nat) : UInt64 :=
  value.toUInt64 &&& maxFieldValue bits

/-- **The signed integer whose pattern the low `bits` bits of `raw` are**: the one that is equal
to `raw` modulo `2 ^ bits` and nearest to zero, the negative one of two. -/
def signExtend (raw : UInt64) (bits : Nat) : Int64 :=
  Int64.ofInt ((raw.toNat : Int).bmod (2 ^ min bits 64))

end WireCodec
