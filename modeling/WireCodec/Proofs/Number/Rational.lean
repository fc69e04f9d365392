import Mathlib.Algebra.Order.Floor.Ring
import Mathlib.Algebra.Order.Round
import Mathlib.Data.Rat.Floor
import Mathlib.Tactic.Linarith
import WireCodec.Number

/-!
# Evaluation in rational numbers

The rational numbers are the numbers in which nothing is rounded but by `WireCodec.Number.round`.
What an expression or a length means is its value in them.

A power is that of the numerator of the exponent, so it is the power only for an integral one. No
number is infinite or undefined; what a division by zero gives does not matter, as no statement is
made about one.

Where only sums and differences matter, a statement may be about any type of numbers in which these
are exact (`WireCodec.Number.IsExact`), whatever products, powers and decimals are in it.
-/

namespace WireCodec

/-- The integer next to a number on the side of zero. -/
def truncate (q : ℚ) : ℤ :=
  if 0 ≤ q then ⌊q⌋ else ⌈q⌉

/-- The nearest integer, away from zero if there are two. -/
def roundAway (q : ℚ) : ℤ :=
  if 0 ≤ q then ⌊q + 1 / 2⌋ else ⌈q - 1 / 2⌉

/-- The text of a rational number: that of an integer if it is one, and a quotient otherwise. -/
def rationalText (q : ℚ) : List Char :=
  if q.den = 1 then Decimal.intText q.num else Decimal.intText q.num ++ '/' :: Decimal.natText q.den

/-- **Arithmetic in rational numbers.** -/
instance : Number ℚ where
  remainder a b := a - b * truncate (a / b)
  power a b := a ^ b.num
  ofDecimal d := d.digits * (10 : ℚ) ^ d.exponent
  ofInt n := n
  isFinite _ := true
  isIntegral q := q.den == 1
  equal a b := a == b
  round q := roundAway q
  toInt := truncate
  text := rationalText

variable {q : ℚ}

theorem truncate_intCast (n : ℤ) : truncate n = n := by
  unfold truncate
  split <;> simp

theorem roundAway_intCast (n : ℤ) : roundAway n = n := by
  unfold roundAway
  split
  · rw [Int.floor_eq_iff]
    constructor <;> linarith
  · rw [Int.ceil_eq_iff]
    constructor <;> linarith

/-- Rounding goes half a unit at most. -/
theorem abs_roundAway_sub_le (q : ℚ) : |(roundAway q : ℚ) - q| ≤ 1 / 2 := by
  unfold roundAway
  split
  · have hle := Int.floor_le (q + 1 / 2)
    have hlt := Int.lt_floor_add_one (q + 1 / 2)
    rw [abs_le]
    constructor <;> linarith
  · have hle := Int.le_ceil (q - 1 / 2)
    have hlt := Int.ceil_lt_add_one (q - 1 / 2)
    rw [abs_le]
    constructor <;> linarith

/-! ### The operations -/

namespace Number

@[simp] theorem ofInt_rat (n : ℤ) : (ofInt n : ℚ) = n := rfl

@[simp] theorem round_rat (q : ℚ) : round q = (roundAway q : ℚ) := rfl

@[simp] theorem isFinite_rat (q : ℚ) : isFinite q = true := rfl

@[simp] theorem toInt_intCast (n : ℤ) : toInt (n : ℚ) = n :=
  truncate_intCast n

theorem isIntegral_rat_iff : isIntegral q = true ↔ ∃ n : ℤ, q = n := by
  change (q.den == 1) = true ↔ _
  rw [beq_iff_eq]
  constructor
  · intro h
    exact ⟨q.num, (Rat.den_eq_one_iff q).mp h |>.symm⟩
  · rintro ⟨n, rfl⟩
    exact Rat.den_intCast n

theorem isZero_rat_iff : isZero q = true ↔ q = 0 := by
  change (q == ((0 : ℤ) : ℚ)) = true ↔ _
  rw [beq_iff_eq, Int.cast_zero]

theorem isOne_rat_iff : isOne q = true ↔ q = 1 := by
  change (q == ((1 : ℤ) : ℚ)) = true ↔ _
  rw [beq_iff_eq, Int.cast_one]

theorem text_intCast (n : ℤ) : text (n : ℚ) = Decimal.intText n := by
  change rationalText n = _
  rw [rationalText, if_pos (Rat.den_intCast n), Rat.num_intCast]

/-! ### Exact sums -/

/-- **Sums and differences are exact** where they are finite, and so are the integers. -/
class IsExact (α : Type) [Number α] : Prop where
  /-- A sum is finite only if its operands are. -/
  isFinite_of_add {a b : α} (h : isFinite (a + b) = true) : isFinite a = true ∧ isFinite b = true
  /-- A difference is finite only if its operands are. -/
  isFinite_of_sub {a b : α} (h : isFinite (a - b) = true) : isFinite a = true ∧ isFinite b = true
  /-- It does not matter whether a number is taken away from the sum or from its last operand. -/
  add_sub {a b c : α} (h : isFinite (a + b - c) = true) : a + b - c = a + (b - c)
  /-- Adding to zero changes nothing. -/
  zero_add {a : α} (h : isFinite a = true) : ofInt 0 + a = a
  /-- An integer is not rounded. -/
  round_ofInt (n : ℤ) : round (ofInt n : α) = ofInt n
  /-- No other integer is equal to zero. -/
  isZero_ofInt (n : ℤ) : isZero (ofInt n : α) = true ↔ n = 0
  /-- One is equal to itself. -/
  isOne_one : isOne (ofInt 1 : α) = true
  /-- An integer is written in its digits. -/
  text_ofInt (n : ℤ) : text (ofInt n : α) = Decimal.intText n

instance : IsExact ℚ where
  isFinite_of_add _ := ⟨rfl, rfl⟩
  isFinite_of_sub _ := ⟨rfl, rfl⟩
  add_sub _ := add_sub_assoc _ _ _
  zero_add _ := by rw [ofInt_rat, Int.cast_zero]; exact AddZeroClass.zero_add _
  round_ofInt n := by rw [ofInt_rat, round_rat, roundAway_intCast]
  isZero_ofInt n := by rw [ofInt_rat, isZero_rat_iff, Int.cast_eq_zero]
  isOne_one := by rw [ofInt_rat, isOne_rat_iff, Int.cast_one]
  text_ofInt := text_intCast

end Number

end WireCodec
