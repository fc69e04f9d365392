import Mathlib.Algebra.Order.Field.Power
import Mathlib.Algebra.Order.Field.Rat
import Mathlib.Algebra.Order.Round
import Mathlib.Data.Int.Log
import Mathlib.Data.Rat.Floor
import Mathlib.Data.Sign.Basic
import Mathlib.Tactic.FieldSimp
import Mathlib.Tactic.Linarith
import Mathlib.Tactic.Positivity
import Mathlib.Tactic.Ring
import WireCodec.Power

/-!
# The nearest number with 53 significant bits

What an operation on floating point numbers gives is its exact result, rounded: to 53 significant
bits, and of two numbers that are equally near to the one whose last bit is zero. Here it is a
function on the rational numbers, `WireCodec.nearest`, which knows no least and no greatest
exponent.

A number with 53 significant bits is its own nearest number (`WireCodec.nearest_of_significant`).
Next to these, two families are rounded further on: an integer and a half, which has 53 significant
bits below `2 ^ 52` and is halfway between two integers from there on
(`WireCodec.nearest_add_half`), and the greatest integer of more than 53 bits, which is rounded up
to a power of two (`WireCodec.nearest_two_pow_sub_one`).

Floating point numbers have 53 significant bits only where their exponents have room for it.
`WireCodec.InRange` says that a number is there.
-/

namespace WireCodec

/-! ### Integers -/

/-- **The nearest integer to a rational number**; of two that are equally near, the even one. -/
def roundEven (q : ℚ) : ℤ :=
  if 2 * Int.fract q < 1 then ⌊q⌋
  else if 2 * Int.fract q = 1 then ⌊q⌋ + ⌊q⌋ % 2
  else ⌊q⌋ + 1

theorem roundEven_intCast (n : ℤ) : roundEven n = n := by
  rw [roundEven, if_pos (by norm_num), Int.floor_intCast]

/-- Halfway between two integers. -/
theorem roundEven_add_half (n : ℤ) : roundEven (n + 1 / 2) = n + n % 2 := by
  have hfloor : ⌊(n : ℚ) + 1 / 2⌋ = n := by
    rw [Int.floor_eq_iff]
    constructor <;> linarith
  have hfract : 2 * Int.fract ((n : ℚ) + 1 / 2) = 1 := by
    rw [Int.fract, hfloor]
    ring
  rw [roundEven, hfract, hfloor, if_neg (lt_irrefl _), if_pos rfl]

/-- From an odd integer, rounding goes up already halfway. -/
theorem roundEven_of_odd {q : ℚ} (hodd : ⌊q⌋ % 2 = 1) (hfract : 1 ≤ 2 * Int.fract q) :
    roundEven q = ⌊q⌋ + 1 := by
  rw [roundEven, if_neg (not_lt.mpr hfract), hodd, ite_self]

/-- Rounding does not go past the integers around a number. -/
theorem roundEven_mem (q : ℚ) : ⌊q⌋ ≤ roundEven q ∧ roundEven q ≤ ⌊q⌋ + 1 := by
  unfold roundEven
  split_ifs <;> omega

/-- A number between two integers is rounded to one that is between them too. -/
theorem roundEven_bounds {q : ℚ} {low high : ℤ} (hlow : low ≤ q) (hhigh : q < high) :
    low ≤ roundEven q ∧ roundEven q ≤ high := by
  obtain ⟨hfloor, hceil⟩ := roundEven_mem q
  have hle : low ≤ ⌊q⌋ := Int.le_floor.mpr hlow
  have hlt : ⌊q⌋ < high := Int.floor_lt.mpr hhigh
  omega

/-! ### Significant bits -/

/-- **The exponent of the last of 53 significant bits.** -/
def lastExponent (q : ℚ) : ℤ :=
  Int.log 2 |q| - 52

/-- **The nearest number with 53 significant bits**; of two that are equally near, the one whose
last bit is zero. -/
def nearest (q : ℚ) : ℚ :=
  SignType.sign q * (roundEven (|q| / 2 ^ lastExponent q) * 2 ^ lastExponent q)

variable {q : ℚ} {e : ℤ} {m n bits : ℕ}

theorem nearest_zero : nearest 0 = 0 := by
  simp [nearest]

/-- Numbers of both signs are rounded alike. -/
theorem nearest_neg (q : ℚ) : nearest (-q) = -nearest q := by
  unfold nearest lastExponent
  rw [Left.sign_neg, abs_neg, SignType.coe_neg, neg_mul]

/-- **Rounding a positive number**, when the place of its leading bit is known. -/
theorem nearest_of_bounds (hlow : 2 ^ 52 * 2 ^ e ≤ q) (hhigh : q < 2 ^ 53 * 2 ^ e) :
    nearest q = roundEven (q / 2 ^ e) * 2 ^ e := by
  have hunit : (0 : ℚ) < 2 ^ e := by positivity
  have hpos : 0 < q := lt_of_lt_of_le (by positivity) hlow
  rw [← zpow_natCast, ← zpow_add₀ two_ne_zero] at hlow hhigh
  have hlog : Int.log 2 q = 52 + e := by
    have hle := (Int.zpow_le_iff_le_log one_lt_two hpos).mp hlow
    have hlt := (Int.lt_zpow_iff_log_lt one_lt_two hpos).mp hhigh
    push_cast at hle hlt
    omega
  have hlast : lastExponent q = e := by
    rw [lastExponent, abs_of_pos hpos, hlog]
    omega
  rw [nearest, hlast, sign_pos hpos, abs_of_pos hpos, SignType.coe_one, one_mul]

/-- A number with 53 significant bits is its own nearest number. -/
theorem nearest_of_normal (hlow : 2 ^ 52 ≤ m) (hhigh : m < 2 ^ 53) :
    nearest (m * 2 ^ e) = m * 2 ^ e := by
  have hunit : (0 : ℚ) < 2 ^ e := by positivity
  have hlow' : (2 : ℚ) ^ 52 ≤ m := by exact_mod_cast hlow
  have hhigh' : (m : ℚ) < 2 ^ 53 := by exact_mod_cast hhigh
  rw [nearest_of_bounds (e := e) (by gcongr) (by gcongr), mul_div_cancel_right₀ _ hunit.ne']
  rw [← Int.cast_natCast m, roundEven_intCast]

/-- Shifted up by what it lacks, a number has 53 bits. -/
theorem two_pow_le_mul_two_pow (hpos : 0 < n) : 2 ^ 52 ≤ n * 2 ^ (52 - n.log2) :=
  calc 2 ^ 52 ≤ 2 ^ (n.log2 + (52 - n.log2)) := Nat.pow_le_pow_right two_pos (by omega)
    _ = 2 ^ n.log2 * 2 ^ (52 - n.log2) := pow_add ..
    _ ≤ n * 2 ^ (52 - n.log2) := Nat.mul_le_mul_right _ (Nat.log2_self_le hpos.ne')

/-- Shifted up by what it lacks, a number of up to 53 bits has no more. -/
theorem mul_two_pow_lt (hpos : 0 < n) (hlt : n < 2 ^ 53) : n * 2 ^ (52 - n.log2) < 2 ^ 53 := by
  have hle : n.log2 ≤ 52 := Nat.lt_succ_iff.mp ((Nat.log2_lt hpos.ne').mpr hlt)
  calc n * 2 ^ (52 - n.log2) < 2 ^ (n.log2 + 1) * 2 ^ (52 - n.log2) :=
        Nat.mul_lt_mul_of_pos_right Nat.lt_log2_self (Nat.two_pow_pos _)
    _ = 2 ^ 53 := by rw [← pow_add, Nat.add_right_comm, Nat.add_sub_cancel' hle]

/-- Shifted up and in a smaller unit, a number is what it was. -/
theorem mul_zpow_eq_shift (n shift : ℕ) (e : ℤ) :
    (n : ℚ) * 2 ^ e = (n * 2 ^ shift : ℕ) * 2 ^ (e - shift) := by
  rw [zpow_sub₀ two_ne_zero, zpow_natCast]
  push_cast
  field_simp

/-- **A natural number of up to 53 bits, in any unit, is its own nearest number.** -/
theorem nearest_of_significant (hlt : n < 2 ^ 53) (e : ℤ) :
    nearest (n * 2 ^ e) = n * 2 ^ e := by
  rcases Nat.eq_zero_or_pos n with rfl | hpos
  · rw [Nat.cast_zero, zero_mul, nearest_zero]
  · rw [mul_zpow_eq_shift n (52 - n.log2),
      nearest_of_normal (two_pow_le_mul_two_pow hpos) (mul_two_pow_lt hpos hlt)]

/-- An integer is its own nearest number, up to `2 ^ 53`. -/
theorem nearest_natCast (hle : n ≤ 2 ^ 53) : nearest n = n := by
  rcases hle.lt_or_eq with hlt | rfl
  · simpa using nearest_of_significant hlt 0
  · have hnormal := nearest_of_normal (m := 2 ^ 52) (e := 1) (by norm_num) (by norm_num)
    norm_num at hnormal ⊢
    exact hnormal

theorem nearest_intCast {z : ℤ} (hle : z.natAbs ≤ 2 ^ 53) : nearest z = z := by
  obtain ⟨n, rfl | rfl⟩ := z.eq_nat_or_neg
  · rw [Int.cast_natCast, nearest_natCast (by omega)]
  · rw [Int.cast_neg, Int.cast_natCast, nearest_neg, nearest_natCast (by omega)]

/-- **An integer and a half.** Below `2 ^ 52` it has 53 significant bits, and from there on it is
halfway between two integers, so that it goes to the even one. -/
theorem nearest_add_half (hle : n ≤ 2 ^ 53) :
    nearest (n + 1 / 2) = if n < 2 ^ 52 then (n : ℚ) + 1 / 2 else (n + n % 2 : ℕ) := by
  split_ifs with hlt
  · have hhalf : (n : ℚ) + 1 / 2 = (2 * n + 1 : ℕ) * 2 ^ (-1 : ℤ) := by
      push_cast
      ring
    rw [hhalf, nearest_of_significant (by omega)]
  · have hlow : (2 : ℚ) ^ 52 ≤ n := by exact_mod_cast not_lt.mp hlt
    rcases hle.lt_or_eq with hlt' | rfl
    · have hhigh : (n : ℚ) + 1 ≤ 2 ^ 53 := by exact_mod_cast hlt'
      have hround := roundEven_add_half n
      rw [nearest_of_bounds (e := 0) (by linarith) (by linarith), zpow_zero, mul_one, div_one]
      rw [Int.cast_natCast] at hround
      rw [hround]
      push_cast
      rfl
    · -- The unit is two from here on, and the half is only a fourth of it.
      have hfloor : ⌊((2 ^ 53 : ℕ) + 1 / 2 : ℚ) / 2 ^ (1 : ℤ)⌋ = 2 ^ 52 := by
        rw [Int.floor_eq_iff]
        norm_num
      have hfract : 2 * Int.fract (((2 ^ 53 : ℕ) + 1 / 2 : ℚ) / 2 ^ (1 : ℤ)) < 1 := by
        rw [Int.fract, hfloor]
        norm_num
      rw [nearest_of_bounds (e := 1) (by norm_num) (by norm_num), roundEven, if_pos hfract, hfloor]
      norm_num

/-- **The greatest integer of more than 53 bits is rounded up**: it is less than a unit below the
power of two, and at least as near to it as to the odd significand before. -/
theorem nearest_two_pow_sub_one (hbits : 54 ≤ bits) : nearest (2 ^ bits - 1) = 2 ^ bits := by
  obtain ⟨k, rfl⟩ : ∃ k, bits = 53 + (k + 1) := ⟨bits - 54, by omega⟩
  have hunit : (2 : ℚ) ≤ 2 ^ (k + 1) := le_self_pow₀ one_le_two k.succ_ne_zero
  have hgap : (1 : ℚ) / 2 ^ (k + 1) ≤ 1 / 2 := one_div_le_one_div_of_le two_pos hunit
  have hpos : (0 : ℚ) < 1 / 2 ^ (k + 1) := by positivity
  have hquotient : ((2 : ℚ) ^ (53 + (k + 1)) - 1) / 2 ^ (k + 1) = 2 ^ 53 - 1 / 2 ^ (k + 1) := by
    rw [pow_add]
    field_simp
  have hfloor : ⌊(2 : ℚ) ^ 53 - 1 / 2 ^ (k + 1)⌋ = 2 ^ 53 - 1 := by
    rw [Int.floor_eq_iff]
    push_cast
    constructor <;> linarith
  have hfract : 1 ≤ 2 * Int.fract ((2 : ℚ) ^ 53 - 1 / 2 ^ (k + 1)) := by
    rw [Int.fract, hfloor]
    push_cast
    linarith
  have hround := roundEven_of_odd (by rw [hfloor]; rfl) hfract
  rw [hfloor] at hround
  rw [nearest_of_bounds (e := (k + 1 : ℕ))] <;> simp only [zpow_natCast]
  · rw [hquotient, hround, pow_add 2 53]
    push_cast
    ring
  · rw [pow_add 2 53]
    linarith
  · rw [pow_add 2 53]
    linarith

/-! ### The range of the exponents -/

/-- **The range of the normal numbers**, with room for rounding, and zero. -/
def InRange (q : ℚ) : Prop :=
  q = 0 ∨ 2 ^ (-1022 : ℤ) ≤ |q| ∧ |q| < 2 ^ (1023 : ℤ)

/-- A number in range that is positive. -/
theorem InRange.bounds (h : InRange q) (hpos : 0 < q) :
    2 ^ (-1022 : ℤ) ≤ q ∧ q < 2 ^ (1023 : ℤ) := by
  obtain ⟨hmin, hmax⟩ := h.resolve_left hpos.ne'
  rw [abs_of_pos hpos] at hmin hmax
  exact ⟨hmin, hmax⟩

/-- Halves and greater numbers are in range, up to the size of a word. -/
theorem inRange_of_le_abs (hlow : 1 / 2 ≤ |q|) (hhigh : |q| ≤ 2 ^ 64) : InRange q := by
  refine .inr ⟨le_trans ?_ hlow, lt_of_le_of_lt hhigh ?_⟩
  · rw [one_div, ← zpow_neg_one]
    exact zpow_le_zpow_right₀ one_le_two (by omega)
  · rw [← zpow_natCast]
    exact zpow_lt_zpow_right₀ one_lt_two (by omega)

theorem inRange_intCast {z : ℤ} (hle : z.natAbs ≤ 2 ^ 64) : InRange z := by
  rcases Nat.eq_zero_or_pos z.natAbs with hz | hpos
  · rw [Int.natAbs_eq_zero.mp hz]
    exact .inl Int.cast_zero
  · have habs : |(z : ℚ)| = z.natAbs := by rw [Nat.cast_natAbs, Int.cast_abs]
    have hone : (1 : ℚ) ≤ z.natAbs := by exact_mod_cast hpos
    refine inRange_of_le_abs ?_ ?_ <;> rw [habs]
    · linarith
    · exact_mod_cast hle

theorem inRange_neg : InRange (-q) ↔ InRange q := by
  rw [InRange, InRange, neg_eq_zero, abs_neg]

end WireCodec
