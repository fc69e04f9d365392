import WireCodec.Ieee

/-!
# Compact floating point numbers

A compact number has `16` or `24` bits: a sign bit, an exponent field and `significandBits`
significand bits, so that a `WireCodec.CompactFormat` says how the bits are shared out. As in the
wider formats the exponent field is biased by `2 ^ (exponentBits - 1) - 1`, normal numbers have an
implied leading one, and a zero exponent field marks the numbers without it.

Encoding never fails (`WireCodec.CompactFormat.encode`). The significand is rounded half up, but
stops at all ones instead of carrying into the exponent; magnitudes above the largest finite one
become that one, so that the exponent field is never all ones; magnitudes that are too small lose
their implied one and then all bits.

Decoding (`WireCodec.CompactFormat.decode`) goes to 32-bit patterns, and gives an infinity or a
zero where the exponent is out of their range.
-/

namespace WireCodec

/-- The number of bits of a compact number. -/
inductive CompactWidth
  /-- Two bytes. -/
  | bits16
  /-- Three bytes. -/
  | bits24
deriving DecidableEq, Repr

namespace CompactWidth

/-- The number of bits. -/
def bits : CompactWidth → Nat
  | bits16 => 16
  | bits24 => 24

/-- The number of bytes. -/
def bytes : CompactWidth → Nat
  | bits16 => 2
  | bits24 => 3

/-- The least number of significand bits. -/
def minSignificandBits : CompactWidth → Nat
  | _ => 4

/-- The greatest number of significand bits. -/
def maxSignificandBits : CompactWidth → Nat
  | bits16 => 12
  | bits24 => 20

end CompactWidth

/-- **The layout of a compact number.** -/
structure CompactFormat where
  /-- The number of all bits. -/
  width : CompactWidth
  /-- The number of significand bits. -/
  significandBits : Nat
  /-- There are enough significand bits. -/
  min_le : width.minSignificandBits ≤ significandBits
  /-- There are enough bits left for the exponent. -/
  le_max : significandBits ≤ width.maxSignificandBits
deriving DecidableEq, Repr

namespace CompactFormat

/-- The format of the given width with the given number of significand bits, if there is one. -/
def of? (width : CompactWidth) (significandBits : Nat) : Option CompactFormat :=
  if h : width.minSignificandBits ≤ significandBits ∧
      significandBits ≤ width.maxSignificandBits then
    some ⟨width, significandBits, h.1, h.2⟩
  else none

/-- The number of exponent bits. -/
def exponentBits (f : CompactFormat) : Nat :=
  f.width.bits - 1 - f.significandBits

/-- What is added to an exponent in the exponent field. -/
def bias (f : CompactFormat) : Nat :=
  2 ^ (f.exponentBits - 1) - 1

/-- The significand field of all ones. -/
def maxSignificand (f : CompactFormat) : Nat :=
  2 ^ f.significandBits - 1

/-- The pattern of the largest finite number: the greatest exponent field that is not all ones,
and a significand field of all ones. -/
def maxPattern (f : CompactFormat) : Nat :=
  (2 ^ f.exponentBits - 2) * 2 ^ f.significandBits + f.maxSignificand

/-! ### Encoding -/

/-- `n / 2 ^ places`, rounded half up. -/
def roundShift (n places : Nat) : Nat :=
  (n + 2 ^ (places - 1)) / 2 ^ places

/-- The 23 significand bits of a 32-bit pattern rounded to those of the format, all ones if they
would carry. -/
def roundSignificand (f : CompactFormat) (significand : Nat) : Nat :=
  min (roundShift significand (23 - f.significandBits)) f.maxSignificand

/-- From this many places on, a magnitude without the implied one vanishes. -/
def vanishingShift : Nat := 16

/-- The low bits, all but the sign, of the pattern for the exponent and significand fields of a
32-bit pattern other than zero. -/
def encodeMagnitude (f : CompactFormat) (exponent significand : Nat) : Nat :=
  let rounded := f.roundSignificand significand
  -- The exponent field of the compact number, were it to have the implied one.
  let field : Int := exponent - 127 + f.bias
  if field ≤ 0 then
    let places := (1 - field).toNat
    if vanishingShift ≤ places then 0
    else roundShift (rounded + 2 ^ f.significandBits) places
  else if 2 * (f.bias : Int) < field then f.maxPattern
  else field.toNat * 2 ^ f.significandBits + rounded

/-- **The compact pattern of a 32-bit pattern**, a number below `2 ^ width`. -/
def encode (f : CompactFormat) (x : Binary32) : Nat :=
  let sign := x.negative.toNat * 2 ^ (f.width.bits - 1)
  if x.exponent = 0 ∧ x.significand = 0 then sign
  else sign + f.encodeMagnitude x.exponent x.significand

/-! ### Decoding -/

/-- The sign bit of a pattern. -/
def patternNegative (f : CompactFormat) (pattern : Nat) : Bool :=
  pattern.testBit (f.width.bits - 1)

/-- The exponent field of a pattern. -/
def patternExponent (f : CompactFormat) (pattern : Nat) : Nat :=
  pattern / 2 ^ f.significandBits % 2 ^ f.exponentBits

/-- The significand field of a pattern. -/
def patternSignificand (f : CompactFormat) (pattern : Nat) : Nat :=
  pattern % 2 ^ f.significandBits

/-- The exponent of a pattern's leading one and the significand bits after it. Without an implied
one the significand is shifted up until its own leading one falls out at the top. -/
def normalize (f : CompactFormat) (exponent significand : Nat) : Int × Nat :=
  if exponent = 0 then
    let places := f.significandBits - significand.log2
    (1 - (f.bias : Int) - places, significand * 2 ^ places - 2 ^ f.significandBits)
  else ((exponent : Int) - f.bias, significand)

/-- **The 32-bit pattern of a compact pattern**, of which only the bits of the format's width
count. -/
def decode (f : CompactFormat) (pattern : Nat) : Binary32 :=
  let negative := f.patternNegative pattern
  let exponent := f.patternExponent pattern
  let significand := f.patternSignificand pattern
  if exponent = 0 ∧ significand = 0 then .ofFields negative 0 0
  else
    let (exponent, significand) := f.normalize exponent significand
    if 127 < exponent then .ofFields negative 255 0
    else if exponent < -126 then .ofFields negative 0 0
    else .ofFields negative (exponent + 127).toNat (significand * 2 ^ (23 - f.significandBits))

/-- The largest finite number, as a 32-bit pattern. -/
def maxValue (f : CompactFormat) : Binary32 :=
  f.decode f.maxPattern

end CompactFormat

end WireCodec
