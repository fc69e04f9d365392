import WireCodec.Decimal

/-!
# The numbers that lengths are computed in

Expressions and lengths are evaluated in any type of numbers with the operations of
`WireCodec.Number`. The laws of arithmetic are not part of it, so that a type whose operations
round has them too.
-/

namespace WireCodec

/-- **A type of numbers** to evaluate expressions in. -/
class Number (α : Type) extends Add α, Sub α, Mul α, Div α, Neg α where
  /-- What is left of the first number after taking away the second one as often as it goes in,
  with the sign of the first. -/
  remainder : α → α → α
  /-- The first number to the power of the second. -/
  power : α → α → α
  /-- The number a decimal stands for. -/
  ofDecimal : Decimal → α
  /-- The number an integer stands for. -/
  ofInt : Int → α
  /-- The number is neither infinite nor undefined. -/
  isFinite : α → Bool
  /-- The number is an integer. -/
  isIntegral : α → Bool
  /-- The two numbers are equal. -/
  equal : α → α → Bool
  /-- The nearest integral number, away from zero if there are two. -/
  round : α → α
  /-- The integer that an integral number is. -/
  toInt : α → Int
  /-- The text of the number. -/
  text : α → List Char

namespace Number

variable {α : Type} [Number α]

/-- The number is zero. -/
def isZero (a : α) : Bool :=
  equal a (ofInt 0)

/-- The number is one. -/
def isOne (a : α) : Bool :=
  equal a (ofInt 1)

end Number

end WireCodec
