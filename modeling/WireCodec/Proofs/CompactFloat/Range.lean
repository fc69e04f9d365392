import WireCodec.Proofs.CompactFloat.RoundTrip

/-!
# The range of encoding

Whatever is encoded, its magnitude is at most that of the largest finite number
(`WireCodec.CompactFormat.encodeMagnitude_le_maxPattern`). So the sign bit is above the bits of the
magnitude (`WireCodec.CompactFormat.encode_eq`), which are the same for both signs
(`WireCodec.CompactFormat.encode_mod`). A pattern has room in the bits of its format
(`WireCodec.CompactFormat.encode_lt`), and nothing of it is lost in as many bytes. Its exponent
field is never all ones (`WireCodec.CompactFormat.patternExponent_encode_lt`).
-/

namespace WireCodec.CompactFormat

variable {f : CompactFormat} {exponent field places : Nat}

/-- Rounding a number with the implied one down by at least one place leaves at most the implied
one. -/
theorem roundShift_le {n bits places : Nat} (hplaces : 0 < places) (h : n < 2 * 2 ^ bits) :
    roundShift n places ≤ 2 ^ bits := by
  obtain ⟨k, rfl⟩ : ∃ k, places = k + 1 := ⟨places - 1, by omega⟩
  have hbits := Nat.two_pow_pos bits
  have hk := Nat.two_pow_pos k
  have hmul : 2 ^ bits ≤ 2 ^ k * 2 ^ bits := Nat.le_mul_of_pos_left _ hk
  rw [roundShift, Nat.add_sub_cancel, ← Nat.lt_add_one_iff, Nat.div_lt_iff_lt_mul (by omega),
    Nat.pow_succ, Nat.add_mul, Nat.one_mul, Nat.mul_comm (2 ^ bits), Nat.mul_right_comm]
  omega

/-- There are at least three exponent bits. -/
theorem three_le_bias (f : CompactFormat) : 3 ≤ f.bias := by
  have hbias := f.two_mul_bias
  have hexponent : 2 ^ 3 ≤ 2 ^ f.exponentBits :=
    Nat.pow_le_pow_right (by decide) f.width_eq.2.1
  omega

/-! ### The three ranges of exponents -/

/-- **An exponent is in one of three ranges**: below the least one with an implied one, by so many
places, or among those, with so large a field, or above all of them. -/
theorem exponent_cases (f : CompactFormat) (exponent : Nat) :
    (∃ places : Nat, 0 < places ∧ (places : Int) = 1 - (exponent - 127 + f.bias)) ∨
      (∃ field : Nat, 0 < field ∧ field ≤ 2 * f.bias ∧
        (field : Int) = exponent - 127 + f.bias) ∨
      2 * (f.bias : Int) < exponent - 127 + f.bias := by
  by_cases hlow : (exponent : Int) - 127 + f.bias ≤ 0
  · exact .inl ⟨(1 - ((exponent : Int) - 127 + f.bias)).toNat, by omega, by omega⟩
  by_cases hhigh : 2 * (f.bias : Int) < exponent - 127 + f.bias
  · exact .inr (.inr hhigh)
  · exact .inr (.inl ⟨((exponent : Int) - 127 + f.bias).toNat, by omega, by omega, by omega⟩)

/-- **Without an implied one** a number is shifted down, by at least one place. -/
theorem encodeMagnitude_of_places (significand : Nat)
    (hplaces : (places : Int) = 1 - (exponent - 127 + f.bias)) (hpos : 0 < places) :
    f.encodeMagnitude exponent significand = if vanishingShift ≤ places then 0
      else roundShift (f.roundSignificand significand + 2 ^ f.significandBits) places := by
  simp only [encodeMagnitude, ← hplaces, Int.toNat_natCast]
  rw [if_pos (by omega)]

/-- **With an implied one** a number keeps its exponent. -/
theorem encodeMagnitude_of_field (significand : Nat)
    (hfield : (field : Int) = exponent - 127 + f.bias) (hpos : 0 < field)
    (hle : field ≤ 2 * f.bias) :
    f.encodeMagnitude exponent significand =
      field * 2 ^ f.significandBits + f.roundSignificand significand := by
  simp only [encodeMagnitude, ← hfield, Int.toNat_natCast]
  rw [if_neg (by omega), if_neg (by omega)]

/-- **Above that** only the largest finite number is left. -/
theorem encodeMagnitude_of_lt (significand : Nat)
    (h : 2 * (f.bias : Int) < exponent - 127 + f.bias) :
    f.encodeMagnitude exponent significand = f.maxPattern := by
  simp only [encodeMagnitude]
  rw [if_neg (by omega), if_pos h]

/-! ### The largest magnitude -/

/-- The fields of the largest finite number. -/
theorem maxPattern_eq (f : CompactFormat) :
    f.maxPattern = 2 * f.bias * 2 ^ f.significandBits + f.maxSignificand := by
  rw [maxPattern, ← f.two_mul_bias, Nat.add_sub_cancel]

theorem maxSignificand_lt (f : CompactFormat) : f.maxSignificand < 2 ^ f.significandBits :=
  Nat.sub_lt (Nat.two_pow_pos _) Nat.one_pos

/-- The largest finite number has a clear sign bit. -/
theorem maxPattern_lt (f : CompactFormat) : f.maxPattern < 2 ^ (f.width.bits - 1) := by
  have hmax := f.maxSignificand_lt
  rw [f.width_eq.1, Nat.add_sub_cancel, Nat.pow_add, maxPattern_eq, ← f.two_mul_bias, Nat.add_mul]
  omega

theorem roundSignificand_lt (f : CompactFormat) (significand : Nat) :
    f.roundSignificand significand < 2 ^ f.significandBits :=
  Nat.lt_of_le_of_lt (Nat.min_le_right _ _) f.maxSignificand_lt

/-- **Every magnitude is at most that of the largest finite number.** -/
theorem encodeMagnitude_le_maxPattern (f : CompactFormat) (exponent significand : Nat) :
    f.encodeMagnitude exponent significand ≤ f.maxPattern := by
  have hbias := f.three_le_bias
  have hrounded := f.roundSignificand_lt significand
  have hmax : f.roundSignificand significand ≤ f.maxSignificand := Nat.min_le_right _ _
  have hmaxPattern := f.maxPattern_eq
  rcases f.exponent_cases exponent with ⟨places, hpos, hplaces⟩ | ⟨field, hpos, hle, hfield⟩ | hlt
  · rw [encodeMagnitude_of_places significand hplaces hpos]
    split
    · exact Nat.zero_le _
    · have hone : 2 ^ f.significandBits ≤ 2 * f.bias * 2 ^ f.significandBits :=
        Nat.le_mul_of_pos_left _ (by omega)
      have hround : roundShift (f.roundSignificand significand + 2 ^ f.significandBits) places ≤
          2 ^ f.significandBits := roundShift_le hpos (by omega)
      omega
  · rw [encodeMagnitude_of_field significand hfield hpos hle]
    have hfields : field * 2 ^ f.significandBits ≤ 2 * f.bias * 2 ^ f.significandBits :=
      Nat.mul_le_mul_right _ hle
    omega
  · exact Nat.le_of_eq (encodeMagnitude_of_lt significand hlt)

/-! ### The sign bit and the bits below it -/

/-- **What a 32-bit pattern is encoded to, but for the sign.** -/
def encodeLow (f : CompactFormat) (x : Binary32) : Nat :=
  if x.exponent = 0 ∧ x.significand = 0 then 0
  else f.encodeMagnitude x.exponent x.significand

theorem encode_eq (f : CompactFormat) (x : Binary32) :
    f.encode x = x.negative.toNat * 2 ^ (f.width.bits - 1) + f.encodeLow x := by
  simp only [encode, encodeLow]
  split
  · rw [Nat.add_zero]
  · rfl

theorem encodeLow_le_maxPattern (f : CompactFormat) (x : Binary32) :
    f.encodeLow x ≤ f.maxPattern := by
  unfold encodeLow
  split
  · exact Nat.zero_le _
  · exact f.encodeMagnitude_le_maxPattern _ _

theorem encodeLow_lt (f : CompactFormat) (x : Binary32) :
    f.encodeLow x < 2 ^ (f.width.bits - 1) :=
  Nat.lt_of_le_of_lt (f.encodeLow_le_maxPattern x) f.maxPattern_lt

/-- The bits below the sign are those that do not depend on it. -/
theorem encode_mod (f : CompactFormat) (x : Binary32) :
    f.encode x % 2 ^ (f.width.bits - 1) = f.encodeLow x := by
  rw [encode_eq, Nat.mul_add_mod_self_right, Nat.mod_eq_of_lt (f.encodeLow_lt x)]

/-- **The sign bit is copied.** -/
theorem patternNegative_encode (f : CompactFormat) (x : Binary32) :
    f.patternNegative (f.encode x) = x.negative := by
  have hlow : f.encodeLow x / 2 ^ (f.width.bits - 1) = 0 := Nat.div_eq_of_lt (f.encodeLow_lt x)
  rw [patternNegative, Nat.testBit_eq_decide_div_mod_eq, encode_eq, Nat.add_comm,
    Nat.add_mul_div_right _ _ (Nat.two_pow_pos _), hlow]
  cases x.negative <;> rfl

/-- **A pattern is below `2 ^ width`.** -/
theorem encode_lt (f : CompactFormat) (x : Binary32) : f.encode x < 2 ^ f.width.bits := by
  have hlow := f.encodeLow_lt x
  have hwidth : 2 ^ f.width.bits = 2 * 2 ^ (f.width.bits - 1) := by
    rw [f.width_eq.1, Nat.add_sub_cancel, Nat.pow_succ, Nat.mul_comm]
  have hsign : x.negative.toNat * 2 ^ (f.width.bits - 1) ≤ 1 * 2 ^ (f.width.bits - 1) :=
    Nat.mul_le_mul_right _ (Bool.toNat_le x.negative)
  rw [encode_eq]
  omega

/-- **The exponent field is never all ones**, as that of the largest finite number is not. -/
theorem patternExponent_encode_lt (f : CompactFormat) (x : Binary32) :
    f.patternExponent (f.encode x) < 2 ^ f.exponentBits - 1 := by
  have hfields := f.joined_fields (f.encode x)
  have hle := f.encodeLow_le_maxPattern x
  have hmax := f.maxSignificand_lt
  rw [encode_mod] at hfields
  rw [maxPattern_eq] at hle
  have hlt : f.patternExponent (f.encode x) * 2 ^ f.significandBits <
      (2 * f.bias + 1) * 2 ^ f.significandBits := by
    rw [Nat.add_mul, Nat.one_mul]
    omega
  have hexponent := Nat.lt_of_mul_lt_mul_right hlt
  have hdouble := f.two_mul_bias
  omega

end WireCodec.CompactFormat
