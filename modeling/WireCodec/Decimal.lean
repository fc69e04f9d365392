import WireCodec.Power

/-!
# Decimal numbers

A `WireCodec.Decimal` is a natural number of digits with a power of ten behind it. Its plain
text has no exponent: as many zeros as it takes are written out instead.
-/

namespace WireCodec

/-- **The number `digits * 10 ^ exponent`.** -/
structure Decimal where
  /-- All digits, as one number. -/
  digits : Nat
  /-- The power of ten. -/
  exponent : Int
deriving DecidableEq, Repr

namespace Decimal

/-- The digits of a natural number. -/
def natText (n : Nat) : List Char :=
  Nat.toDigits 10 n

/-- The digits of an integer, with a minus sign if it is negative. -/
def intText (n : Int) : List Char :=
  if n < 0 then '-' :: natText n.natAbs else natText n.natAbs

/-- The same number without the zeros at the end of its digits, of which at most `count` are
taken away. -/
def stripZeros : (count : Nat) → Decimal → Decimal
  | 0, d => d
  | count + 1, d =>
    if d.digits ≠ 0 ∧ d.digits % 10 = 0 then stripZeros count ⟨d.digits / 10, d.exponent + 1⟩
    else d

/-- **The plain text of a decimal number**: digits, with a point among or before them if the
power of ten is negative, and with zeros after them if it is positive. -/
def plainText (d : Decimal) : List Char :=
  let digits := natText d.digits
  if 0 ≤ d.exponent then digits ++ List.replicate d.exponent.toNat '0'
  else
    let places := (-d.exponent).toNat
    if places < digits.length then
      digits.take (digits.length - places) ++ '.' :: digits.drop (digits.length - places)
    else '0' :: '.' :: List.replicate (places - digits.length) '0' ++ digits

end Decimal

end WireCodec
