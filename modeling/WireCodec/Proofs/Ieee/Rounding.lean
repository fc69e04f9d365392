import Mathlib
import WireCodec.Ieee
import WireCodec.Proofs.Ieee.Nearest

/-!
# Rounding in steps

Floating point numbers are unpacked into a sign, a mantissa and an exponent before anything is
computed with them, and what comes out is rounded to 53 bits before it is packed again. That is done
in steps: the mantissa is shifted down one place after another, while two more bits remember what
has been dropped, then it is rounded by these two bits, and then it is shifted once more in case
that gave it a bit too many.

The two bits are enough (`WireCodec.Represents.roundedMantissa`), and so the steps together are
`WireCodec.nearest` (`WireCodec.isRegular_roundWithAccuracy`), as long as the number is in the range
of the normal numbers. Sums of aligned mantissas are rounded by
`WireCodec.isRegular_normalize`, which also makes a short mantissa longer.
-/

namespace WireCodec

open Float.Model Float.Model.UnpackedFloat

/-! ### Shifts that remember what they drop -/

/-- **A mantissa with two more bits stands for a rational number**: the mantissa is its integer
part, and the bits say where between two integers it is. -/
structure Represents (extended : ExtendedMantissa) (q : ℚ) : Prop where
  /-- The integer part. -/
  floor : ⌊q⌋ = extended.mantissa
  /-- The first bit says that a half or more is left. -/
  roundBit : extended.roundBit = true ↔ 1 ≤ 2 * Int.fract q
  /-- The second bit says that there is anything else than nothing or one half. -/
  stickyBit : extended.stickyBit = true ↔ Int.fract q ≠ 0 ∧ 2 * Int.fract q ≠ 1

variable {extended : ExtendedMantissa} {q : ℚ}

theorem represents_natCast (n : ℕ) : Represents (.ofMantissaAndAccuracy n .exact) n := by
  constructor <;> simp [ExtendedMantissa.ofMantissaAndAccuracy]

/-- The two bits of a remainder. -/
theorem ofMantissaAndAccuracy_accuracyOfFraction (m rest : ℕ) {n : ℕ} (hpos : 0 < n) :
    ExtendedMantissa.ofMantissaAndAccuracy m (accuracyOfFraction rest n) =
      ⟨m, decide (n ≤ 2 * rest), decide (rest ≠ 0 ∧ 2 * rest ≠ n)⟩ := by
  unfold accuracyOfFraction
  split_ifs with hexact
  · simp [ExtendedMantissa.ofMantissaAndAccuracy, hexact, hpos.ne']
  · rcases hcompare : compare (2 * rest) n
    · have hlt := Nat.compare_eq_lt.mp hcompare
      simp [ExtendedMantissa.ofMantissaAndAccuracy, hexact, hlt, hlt.ne]
    · have heq := Nat.compare_eq_eq.mp hcompare
      simp [ExtendedMantissa.ofMantissaAndAccuracy, heq]
    · have hgt := Nat.compare_eq_gt.mp hcompare
      simp [ExtendedMantissa.ofMantissaAndAccuracy, hexact, hgt.le, hgt.ne']

/-- **A quotient** is represented by what division with remainder knows of it. -/
theorem represents_div (m : ℕ) {n : ℕ} (hpos : 0 < n) :
    Represents (.ofMantissaAndAccuracy (m / n) (accuracyOfFraction (m % n) n)) (m / n) := by
  have hpos' : (0 : ℚ) < n := by exact_mod_cast hpos
  have hfract : Int.fract (m / n : ℚ) = (m % n : ℕ) / n := Int.fract_div_natCast_eq_div_natCast_mod
  rw [ofMantissaAndAccuracy_accuracyOfFraction _ _ hpos]
  refine ⟨Rat.floor_natCast_div_natCast m n, ?_, ?_⟩
  · rw [decide_eq_true_iff, hfract, mul_div_assoc', le_div_iff₀ hpos', one_mul]
    norm_cast
  · rw [decide_eq_true_iff, hfract, mul_div_assoc', div_ne_zero_iff, ne_eq _ (1 : ℚ),
      div_eq_one_iff_eq hpos'.ne', and_iff_left hpos'.ne']
    norm_cast

/-- One place further, the bit that is dropped is the first bit. -/
theorem Represents.shiftRightOne (h : Represents extended q) :
    Represents extended.shiftRightOne (q / 2) := by
  have hfloor : ⌊q / 2⌋ = (extended.mantissa / 2 : ℕ) := by
    rw [Int.natCast_div, ← h.floor]
    exact_mod_cast Int.floor_div_natCast q 2
  have hfract : 2 * Int.fract (q / 2) = Int.fract q + (extended.mantissa % 2 : ℕ) := by
    have hdiv : (2 : ℚ) * (extended.mantissa / 2 : ℕ) + (extended.mantissa % 2 : ℕ) =
        extended.mantissa := by exact_mod_cast Nat.div_add_mod extended.mantissa 2
    rw [Int.fract, Int.fract, hfloor, h.floor, Int.cast_natCast, Int.cast_natCast]
    linarith
  have hnonneg := Int.fract_nonneg q
  have hlt := Int.fract_lt_one q
  -- What is left of the half is nothing only if nothing was left before.
  have hsticky : (extended.roundBit || extended.stickyBit) = true ↔ Int.fract q ≠ 0 := by
    rw [Bool.or_eq_true, h.roundBit, h.stickyBit]
    constructor
    · rintro (hround | ⟨hne, -⟩)
      · linarith
      · exact hne
    · intro hne
      by_cases hround : 1 ≤ 2 * Int.fract q
      · exact .inl hround
      · exact .inr ⟨hne, (not_le.mp hround).ne⟩
  refine ⟨hfloor, ?_, ?_⟩
  · rw [hfract]
    rcases Nat.mod_two_eq_zero_or_one extended.mantissa with hbit | hbit <;>
      simp [ExtendedMantissa.shiftRightOne, hbit, hlt, hnonneg]
  · have hzero : Int.fract (q / 2) = 0 ↔ Int.fract q + (extended.mantissa % 2 : ℕ) = 0 := by
      rw [← hfract, mul_eq_zero, or_iff_right two_ne_zero]
    have hsucc : Int.fract q + 1 ≠ 0 := by linarith
    rw [hfract, ne_eq, hzero]
    refine hsticky.trans ?_
    rcases Nat.mod_two_eq_zero_or_one extended.mantissa with hbit | hbit
    · simp [hbit, hlt.ne]
    · simp [hbit, hsucc]

theorem Represents.shiftRight (h : Represents extended q) (k : ℕ) :
    Represents (extended >>> k) (q / 2 ^ k) := by
  change Represents (k.repeat ExtendedMantissa.shiftRightOne extended) _
  induction k with
  | zero => simpa [Nat.repeat] using h
  | succ k ih =>
    rw [pow_succ, ← div_div]
    exact ih.shiftRightOne

/-- **The two bits are enough to round.** -/
theorem Represents.roundedMantissa (h : Represents extended q) :
    extended.roundedMantissa = roundEven q := by
  obtain ⟨mantissa, roundBit, stickyBit⟩ := extended
  obtain ⟨hfloor, hround, hsticky⟩ := h
  dsimp only at hfloor hround hsticky
  rw [roundEven, hfloor]
  cases roundBit
  · have hlt : 2 * Int.fract q < 1 := by simpa using hround
    rw [if_pos hlt]
    cases stickyBit <;> rfl
  · have hle : 1 ≤ 2 * Int.fract q := by simpa using hround
    have hne : Int.fract q ≠ 0 := by
      intro hzero
      rw [hzero] at hle
      linarith
    rw [if_neg (not_lt.mpr hle)]
    cases stickyBit
    · have hhalf : 2 * Int.fract q = 1 := by simpa [hne] using hsticky
      rw [if_pos hhalf]
      rfl
    · have hhalf : 2 * Int.fract q ≠ 1 := by simpa [hne] using hsticky
      rw [if_neg hhalf]
      rfl

/-! ### Normal numbers -/

/-- A magnitude with a sign. -/
def applySign : Sign → ℚ → ℚ
  | .positive, q => q
  | .negative, q => -q

section Sign

variable (s : Sign)

theorem applySign_mul (p q : ℚ) : applySign s p * q = applySign s (p * q) := by
  cases s <;> simp [applySign]

theorem applySign_neg (q : ℚ) : applySign (-s) q = -applySign s q := by
  cases s with
  | positive => rfl
  | negative => exact (neg_neg q).symm

theorem nearest_applySign (q : ℚ) : nearest (applySign s q) = applySign s (nearest q) := by
  cases s <;> simp [applySign, nearest_neg]

theorem cast_apply (n : ℕ) : ((s.apply n : ℤ) : ℚ) = applySign s n := by
  cases s <;> simp [applySign, Sign.apply]

theorem exists_sign_apply (z : ℤ) : ∃ s : Sign, z = s.apply z.natAbs := by
  rcases le_total 0 z with hz | hz
  · exact ⟨.positive, by simp [Sign.apply, abs_of_nonneg hz]⟩
  · exact ⟨.negative, by simp [Sign.apply, abs_of_nonpos hz]⟩

end Sign

/-- **A zero or a normal number, and the rational number that it is**: a mantissa of 53 bits, and
an exponent that fits the field for it. -/
inductive IsRegular : UnpackedFloat → ℚ → Prop
  /-- Zero, with either sign. -/
  | zero (s : Sign) : IsRegular (.zero s) 0
  /-- A normal number. -/
  | normal (s : Sign) {m : ℕ} {e : ℤ} (hpos : 0 < m) (hlow : 2 ^ 52 ≤ m) (hhigh : m < 2 ^ 53)
      (hmin : -1074 ≤ e) (hmax : e ≤ 971) : IsRegular (.finite s m e hpos) (applySign s (m * 2 ^ e))

theorem InRange.applySign_iff (s : Sign) : InRange (applySign s q) ↔ InRange q := by
  cases s <;> simp [InRange, applySign]

/-! ### Rounding to 53 bits -/

/-- The exponent that a number is rounded to is that of the last of 53 bits. -/
theorem targetExponent_totalExponent (m : ℕ) (e : ℤ) :
    Format.binary64.targetExponent (totalExponent m e) = max (m.log2 + e - 52) (-1074) := by
  have hmin : Format.binary64.minExponent = -1074 := rfl
  have hbits : (Format.binary64.mantissaBits : ℤ) = 53 := rfl
  rw [Format.targetExponent, totalExponent, hmin, hbits]
  omega

/-- A normal number is left as it is. -/
theorem shiftToTargetExponent_of_normal {m : ℕ} {e : ℤ} (hlow : 2 ^ 52 ≤ m) (hhigh : m < 2 ^ 53)
    (hmin : -1074 ≤ e) :
    shiftToTargetExponent .binary64 m e .exact = (⟨m, false, false⟩, e) := by
  have hlog : m.log2 = 52 := (Nat.log2_eq_iff (by omega)).mpr ⟨hlow, hhigh⟩
  have hshift : (max ((m.log2 : ℤ) + e - 52) (-1074) - e).toNat = 0 := by omega
  rw [shiftToTargetExponent, targetExponent_totalExponent, shiftToExponent, hshift]
  simp [HShiftRight.hShiftRight, Nat.repeat, ExtendedMantissa.ofMantissaAndAccuracy]

/-- A mantissa that has been rounded up to 54 bits loses one of them, which is zero. -/
theorem shiftToTargetExponent_carry {e : ℤ} (hmin : -1074 ≤ e) :
    shiftToTargetExponent .binary64 (2 ^ 53) e .exact = (⟨2 ^ 52, false, false⟩, e + 1) := by
  have hlog : (2 ^ 53).log2 = 53 := Nat.log2_two_pow
  have hshift : (max (((2 ^ 53).log2 : ℤ) + e - 52) (-1074) - e).toNat = 1 := by omega
  rw [shiftToTargetExponent, targetExponent_totalExponent, shiftToExponent, hshift]
  rfl

variable {n : ℕ} {e : ℤ} {accuracy : Accuracy}

/-- The mantissa is kept. -/
theorem mantissa_ofMantissaAndAccuracy (n : ℕ) (accuracy : Accuracy) :
    (ExtendedMantissa.ofMantissaAndAccuracy n accuracy).mantissa = n := by
  unfold ExtendedMantissa.ofMantissaAndAccuracy
  split <;> rfl

/-- The place of the leading bit of a number with at least 53 bits before the point. -/
theorem exists_leading_bit (hfloor : ⌊q⌋ = n) (hlow : 2 ^ 52 ≤ q) :
    ∃ k, n.log2 = 52 + k ∧ 2 ^ 52 * 2 ^ k ≤ q ∧ q < 2 ^ 53 * 2 ^ k := by
  obtain ⟨hle, hlt⟩ := Int.floor_eq_iff.mp hfloor
  have hn : 2 ^ 52 ≤ n := by
    have hn' : (2 ^ 52 : ℤ) ≤ ⌊q⌋ := Int.le_floor.mpr (by exact_mod_cast hlow)
    rw [hfloor] at hn'
    exact_mod_cast hn'
  have hne : n ≠ 0 := by omega
  obtain ⟨k, hk⟩ := Nat.exists_eq_add_of_le ((Nat.le_log2 hne).mpr hn)
  obtain ⟨hlog, hlog'⟩ := (Nat.log2_eq_iff hne).mp hk
  refine ⟨k, hk, ?_, ?_⟩
  · rw [← pow_add]
    exact le_trans (by exact_mod_cast hlog) hle
  · have hsucc : (n : ℚ) + 1 ≤ 2 ^ (52 + k + 1) := by exact_mod_cast hlog'
    rw [Nat.add_right_comm, pow_add] at hsucc
    exact lt_of_lt_of_le hlt hsucc

/-- The exponent of a number in range fits the field for it, also after a carry. -/
theorem exponent_bounds (hlow : 2 ^ 52 * 2 ^ e ≤ q) (hhigh : q < 2 ^ 53 * 2 ^ e)
    (hmin : 2 ^ (-1022 : ℤ) ≤ q) (hmax : q < 2 ^ (1023 : ℤ)) : -1074 ≤ e ∧ e ≤ 970 := by
  have hlt := hmin.trans_lt hhigh
  have hlt' := hlow.trans_lt hmax
  rw [← zpow_natCast, ← zpow_add₀ two_ne_zero, zpow_lt_zpow_iff_right₀ one_lt_two] at hlt hlt'
  push_cast at hlt hlt'
  omega

/-- What is left of rounding when the mantissa has 53 bits and a rest: a carry may give it one bit
more, and then it is a power of two. -/
theorem isRegular_of_shift (s : Sign) {e' : ℤ}
    (hshift : shiftToTargetExponent .binary64 n e accuracy = (extended, e'))
    (hlow : 2 ^ 52 ≤ extended.roundedMantissa) (hhigh : extended.roundedMantissa ≤ 2 ^ 53)
    (hmin : -1074 ≤ e') (hmax : e' ≤ 970) :
    IsRegular (roundWithAccuracy .binary64 s n e accuracy)
      (applySign s (extended.roundedMantissa * 2 ^ e')) := by
  rw [roundWithAccuracy, hshift]
  dsimp only
  generalize extended.roundedMantissa = m at hlow hhigh ⊢
  rcases hhigh.lt_or_eq with hlt | rfl
  · simp only [shiftToTargetExponent_of_normal hlow hlt hmin]
    rw [dif_neg (by omega)]
    exact .normal s _ hlow hlt hmin (by omega)
  · have hcarry : ((2 ^ 53 : ℕ) : ℚ) * 2 ^ e' = (2 ^ 52 : ℕ) * 2 ^ (e' + 1) := by
      rw [zpow_add_one₀ two_ne_zero]
      push_cast
      ring
    simp only [shiftToTargetExponent_carry hmin]
    rw [dif_neg (by omega), hcarry]
    exact .normal s _ le_rfl (by norm_num) (by omega) (by omega)

/-- **Rounding gives the nearest number**, of an exact mantissa or one with a rest, if it has all
the bits that it needs. -/
theorem isRegular_roundWithAccuracy (s : Sign)
    (h : Represents (.ofMantissaAndAccuracy n accuracy) q) (hlow : 2 ^ 52 ≤ q)
    (hmin : 2 ^ (-1022 : ℤ) ≤ q * 2 ^ e) (hmax : q * 2 ^ e < 2 ^ (1023 : ℤ)) :
    IsRegular (roundWithAccuracy .binary64 s n e accuracy) (applySign s (nearest (q * 2 ^ e))) := by
  have hfloor := h.floor
  rw [mantissa_ofMantissaAndAccuracy] at hfloor
  obtain ⟨k, hlog, hleading, hleading'⟩ := exists_leading_bit hfloor hlow
  have hunit : (0 : ℚ) < 2 ^ e := by positivity
  have hzpow : (2 : ℚ) ^ (e + k) = 2 ^ k * 2 ^ e := by
    rw [zpow_add₀ two_ne_zero, zpow_natCast, mul_comm]
  have hle : 2 ^ 52 * 2 ^ (e + k) ≤ q * 2 ^ e := by
    rw [hzpow, ← mul_assoc]
    gcongr
  have hlt : q * 2 ^ e < 2 ^ 53 * 2 ^ (e + k) := by
    rw [hzpow, ← mul_assoc]
    gcongr
  obtain ⟨hmin', hmax'⟩ := exponent_bounds hle hlt hmin hmax
  have hshift : (max ((n.log2 : ℤ) + e - 52) (-1074) - e).toNat = k := by omega
  have hfirst : shiftToTargetExponent .binary64 n e accuracy =
      (ExtendedMantissa.ofMantissaAndAccuracy n accuracy >>> k, e + k) := by
    rw [shiftToTargetExponent, targetExponent_totalExponent, shiftToExponent, hshift]
  have hround := (h.shiftRight k).roundedMantissa
  obtain ⟨hr, hr'⟩ : 2 ^ 52 ≤ roundEven (q / 2 ^ k) ∧ roundEven (q / 2 ^ k) ≤ 2 ^ 53 := by
    apply roundEven_bounds <;> push_cast
    · rwa [le_div_iff₀ (by positivity)]
    · rwa [div_lt_iff₀ (by positivity)]
  rw [← hround] at hr hr'
  rw [nearest_of_bounds hle hlt, hzpow, mul_div_mul_right _ _ hunit.ne', ← hzpow, ← hround,
    Int.cast_natCast]
  exact isRegular_of_shift s hfirst (by exact_mod_cast hr) (by exact_mod_cast hr') hmin' hmax'

/-- An exact number of any size is rounded to the nearest one. -/
theorem isRegular_round (s : Sign) (hpos : 0 < n) (h : InRange (n * 2 ^ e)) :
    IsRegular (UnpackedFloat.round .binary64 s n e) (applySign s (nearest (n * 2 ^ e))) := by
  have hq : (0 : ℚ) < n * 2 ^ e := by positivity
  obtain ⟨hmin, hmax⟩ := h.bounds hq
  have htotal : -1022 ≤ (n.log2 : ℤ) + e := by
    have hlt : (2 : ℚ) ^ (-1022 : ℤ) < 2 ^ ((n.log2 + 1 : ℕ) : ℤ) * 2 ^ e := by
      refine hmin.trans_lt ?_
      gcongr
      rw [zpow_natCast]
      exact_mod_cast Nat.lt_log2_self
    rw [← zpow_add₀ two_ne_zero, zpow_lt_zpow_iff_right₀ one_lt_two] at hlt
    push_cast at hlt
    omega
  have hshift : (e - max ((n.log2 : ℤ) + e - 52) (-1074)).toNat = 52 - n.log2 := by omega
  -- A short mantissa is made longer first.
  have hlow : (2 : ℚ) ^ 52 ≤ (n * 2 ^ (52 - n.log2) : ℕ) := by
    exact_mod_cast two_pow_le_mul_two_pow hpos
  rw [UnpackedFloat.round, targetExponent_totalExponent, decreaseExponent, hshift, Nat.shiftLeft_eq]
  rw [mul_zpow_eq_shift n (52 - n.log2)] at hmin hmax ⊢
  exact isRegular_roundWithAccuracy s (represents_natCast _) hlow hmin hmax

/-- An integer is rounded by its magnitude. -/
theorem normalize_apply (s zeroSign : Sign) (hpos : 0 < n) (e : ℤ) :
    UnpackedFloat.normalize .binary64 (s.apply n) e zeroSign =
      UnpackedFloat.round .binary64 s n e := by
  unfold UnpackedFloat.normalize
  cases s with
  | positive => rw [Sign.apply, Int.compare_eq_gt.mpr (by omega), Int.toNat_natCast]
  | negative => rw [Sign.apply, Int.compare_eq_lt.mpr (by omega), neg_neg, Int.toNat_natCast]

/-- **An integer in any unit is rounded to the nearest number.** -/
theorem isRegular_normalize {z : ℤ} (h : InRange (z * 2 ^ e)) (zeroSign : Sign) :
    IsRegular (UnpackedFloat.normalize .binary64 z e zeroSign) (nearest (z * 2 ^ e)) := by
  rcases Nat.eq_zero_or_pos z.natAbs with hz | hpos
  · rw [Int.natAbs_eq_zero.mp hz, Int.cast_zero, zero_mul, nearest_zero]
    exact .zero zeroSign
  · obtain ⟨s, hs⟩ := exists_sign_apply z
    generalize z.natAbs = n at hpos hs
    subst hs
    rw [cast_apply, applySign_mul, InRange.applySign_iff] at h
    rw [cast_apply, applySign_mul, nearest_applySign, normalize_apply s zeroSign hpos]
    exact isRegular_round s hpos h

end WireCodec
