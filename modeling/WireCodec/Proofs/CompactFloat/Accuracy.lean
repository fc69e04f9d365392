import WireCodec.Proofs.CompactFloat.Decoding
import WireCodec.Proofs.CompactFloat.Range

/-!
# How far a number is from what is left of it

What is encoded and decoded again has been rounded, in three ways.

* With an implied one, the significand is rounded half up, but stops at all ones where that would
  carry (`WireCodec.CompactFormat.two_mul_abs_roundSignificand_sub_le`). Rounding is off by half a
  unit of the last bit at most. Stopping is off by up to a whole one, but the significand is almost
  two then, and relative to the number the error is the same.
* Above the largest finite number there is only that one.
* Without an implied one, a significand that has been rounded is rounded once more, by as many
  places as it comes down. Half a unit from here and half a unit from there make a whole one at most
  (`WireCodec.CompactFormat.abs_encodeLow_sub_le`). A significand that would come down by
  `WireCodec.CompactFormat.vanishingShift` places is left out, and with fewer significand bits than
  that it is below a unit.
-/

namespace WireCodec.CompactFormat

variable {f : CompactFormat} {x : Binary32} {pattern significand places : ℕ}

/-! ### Rounding -/

/-- **Rounding is off by one half at most.** -/
theorem abs_roundShift_sub_le (n : ℕ) (h : 0 < places) :
    |(roundShift n places : ℚ) - n / 2 ^ places| ≤ 1 / 2 := by
  obtain ⟨k, rfl⟩ : ∃ k, places = k + 1 := ⟨places - 1, by omega⟩
  have hpos : (0 : ℚ) < 2 ^ k := by positivity
  have hdiv := Nat.div_add_mod (n + 2 ^ k) (2 ^ (k + 1))
  have hmod := Nat.mod_lt (n + 2 ^ k) (Nat.two_pow_pos (k + 1))
  rw [roundShift, Nat.add_sub_cancel]
  generalize (n + 2 ^ k) / 2 ^ (k + 1) = q at hdiv ⊢
  generalize (n + 2 ^ k) % 2 ^ (k + 1) = r at hdiv hmod
  -- What is left over is counted from the half that has been added.
  have hsub : (q : ℚ) - n / 2 ^ (k + 1) = (2 ^ k - r) / 2 ^ (k + 1) := by
    have hdiv' : (2 : ℚ) ^ (k + 1) * q + r = n + 2 ^ k := by exact_mod_cast hdiv
    field_simp
    linarith
  have hmod' : (r : ℚ) < 2 ^ k * 2 := by
    rw [← pow_succ]
    exact_mod_cast hmod
  have hnonneg : (0 : ℚ) ≤ r := Nat.cast_nonneg r
  rw [hsub, abs_div, abs_of_pos (by positivity : (0 : ℚ) < 2 ^ (k + 1)),
    div_le_div_iff₀ (by positivity) two_pos, one_mul, pow_succ]
  gcongr
  rw [abs_le]
  constructor <;> linarith

/-- **A rounded significand** is off by half a unit, measured by the number with its implied one. -/
theorem two_mul_abs_roundSignificand_sub_le (f : CompactFormat) (h : significand < 2 ^ 23) :
    2 * |(f.roundSignificand significand : ℚ) - significand / 2 ^ (23 - f.significandBits)| ≤
      1 + significand / 2 ^ 23 := by
  have hwidth := f.width_eq
  have hround := abs_roundShift_sub_le significand (show 0 < 23 - f.significandBits by omega)
  have hnonneg : (0 : ℚ) ≤ significand / 2 ^ 23 := by positivity
  rw [roundSignificand]
  rcases le_total (roundShift significand (23 - f.significandBits)) f.maxSignificand with hle | hge
  · rw [Nat.min_eq_left hle]
    linarith
  · rw [Nat.min_eq_right hge]
    -- The significand is between the field of all ones and the carry.
    have hone : (1 : ℚ) ≤ 2 ^ f.significandBits := one_le_pow₀ one_le_two
    have hmax : (f.maxSignificand : ℚ) = 2 ^ f.significandBits - 1 := by
      rw [maxSignificand, Nat.cast_sub Nat.one_le_two_pow]
      push_cast
      rfl
    have hfraction : (significand : ℚ) / 2 ^ 23 < 1 := by
      rw [div_lt_one (by positivity)]
      exact_mod_cast h
    have hunits : (significand : ℚ) / 2 ^ (23 - f.significandBits) =
        significand / 2 ^ 23 * 2 ^ f.significandBits := by
      rw [f.two_pow_23_eq_rat]
      field_simp
    have hge' : (f.maxSignificand : ℚ) ≤ roundShift significand (23 - f.significandBits) := by
      exact_mod_cast hge
    have hbelow := (abs_le.mp hround).2
    rw [← le_div_iff₀' two_pos, abs_le]
    rw [hmax] at hge' ⊢
    constructor
    · rw [hunits]
      nlinarith
    · linarith

/-- In units of the last bit a rounded significand is off by one at most. -/
theorem abs_roundSignificand_sub_le (f : CompactFormat) (h : significand < 2 ^ 23) :
    |(f.roundSignificand significand : ℚ) - significand / 2 ^ (23 - f.significandBits)| ≤ 1 := by
  have hround := f.two_mul_abs_roundSignificand_sub_le h
  have hfraction : (significand : ℚ) / 2 ^ 23 < 1 := by
    rw [div_lt_one (by positivity)]
    exact_mod_cast h
  linarith

/-! ### With an implied one -/

theorem encodeLow_of_exponent_ne (f : CompactFormat) (h : x.exponent ≠ 0) :
    f.encodeLow x = f.encodeMagnitude x.exponent x.significand :=
  if_neg fun hzero => h hzero.1

/-- With the same leading power two numbers are as far apart as their significands. -/
theorem relative_error_le (f : CompactFormat) (h : significand < 2 ^ 23) {power : ℚ}
    (hpower : 0 < power) :
    |(1 + f.roundSignificand significand / 2 ^ f.significandBits) * power -
        (1 + significand / 2 ^ 23) * power| * 2 ^ (f.significandBits + 1) ≤
      (1 + significand / 2 ^ 23) * power := by
  have hround := f.two_mul_abs_roundSignificand_sub_le h
  have hunit : (0 : ℚ) < 2 ^ f.significandBits := by positivity
  generalize (f.roundSignificand significand : ℚ) = rounded at hround ⊢
  have hsub : (1 + rounded / 2 ^ f.significandBits) * power - (1 + significand / 2 ^ 23) * power =
      (rounded - significand / 2 ^ (23 - f.significandBits)) / 2 ^ f.significandBits * power := by
    rw [f.two_pow_23_eq_rat]
    field_simp
    ring
  calc
    _ = 2 * |rounded - significand / 2 ^ (23 - f.significandBits)| * power := by
      rw [hsub, abs_mul, abs_div, abs_of_pos hpower, abs_of_pos hunit, pow_succ]
      field_simp
    _ ≤ _ := by gcongr

/-- **In the range of a format the error is relative**, as both numbers have the same leading
power. -/
theorem decode_encode_of_field {field : ℕ} (hnormal : x.IsNormal)
    (hfield : (field : ℤ) = x.exponent - 127 + f.bias) (hpos : 0 < field)
    (hle : field ≤ 2 * f.bias) :
    ∃ m : ℚ, (f.decode (f.encode x)).value.toRat? = some (FloatValue.signed x.negative m) ∧
      |m - fieldsMagnitude 127 23 x.exponent x.significand| * 2 ^ (f.significandBits + 1) ≤
        fieldsMagnitude 127 23 x.exponent x.significand := by
  have hrounded := f.roundSignificand_lt x.significand
  have hexponent := x.exponent_le
  have hlow := f.encodeLow_of_exponent_ne hnormal.1
  rw [encodeMagnitude_of_field _ hfield hpos hle] at hlow
  have hleading : (field : ℤ) - f.bias = x.exponent - (127 : ℕ) := by omega
  have hmagnitude : f.magnitude (f.encode x) =
      (1 + f.roundSignificand x.significand / 2 ^ f.significandBits) *
        2 ^ ((x.exponent : ℤ) - (127 : ℕ)) := by
    rw [magnitude_eq_of_mod hrounded ((f.encode_mod x).trans hlow), fieldsMagnitude,
      if_neg hpos.ne', hleading]
  have hbounds := leading_bounds ((x.exponent : ℤ) - (127 : ℕ)) hrounded
  rw [← hmagnitude] at hbounds
  have hge : 2 ^ (-126 : ℤ) ≤ f.magnitude (f.encode x) := by
    refine le_trans ?_ hbounds.1
    exact zpow_le_zpow_right₀ one_le_two (by have := hnormal.1; omega)
  have hlt : f.magnitude (f.encode x) < 2 ^ (128 : ℤ) := by
    refine lt_of_lt_of_le hbounds.2 ?_
    exact zpow_le_zpow_right₀ one_le_two (by have := hnormal.2; omega)
  refine ⟨_, by rw [toRat?_decode_of_range hge hlt, patternNegative_encode], ?_⟩
  rw [hmagnitude, fieldsMagnitude, if_neg hnormal.1]
  exact f.relative_error_le x.significand_lt (by positivity)

/-! ### Without an implied one -/

/-- Up to that of the implied one, a magnitude counts units of the last bit. -/
theorem magnitude_of_mod_le (hle : pattern % 2 ^ (f.width.bits - 1) ≤ 2 ^ f.significandBits) :
    f.magnitude pattern = (pattern % 2 ^ (f.width.bits - 1) : ℕ) *
      2 ^ (1 - (f.bias : ℤ) - f.significandBits) := by
  rcases hle.lt_or_eq with hlt | heq
  · rw [magnitude_eq_of_mod hlt (by rw [Nat.zero_mul, Nat.zero_add]), fieldsMagnitude, if_pos rfl]
  · have hfields : pattern % 2 ^ (f.width.bits - 1) = 1 * 2 ^ f.significandBits + 0 := by
      rw [heq, Nat.one_mul, Nat.add_zero]
    rw [magnitude_eq_of_mod (Nat.two_pow_pos _) hfields, fieldsMagnitude_of_ne_zero one_ne_zero,
      heq, Nat.add_zero, Nat.cast_one]

/-- **A significand that is rounded twice**, with its implied one, is off by one unit at most. -/
theorem abs_roundShift_roundSignificand_sub_le (f : CompactFormat) (hpos : 0 < places)
    (h : significand < 2 ^ 23) :
    |(roundShift (f.roundSignificand significand + 2 ^ f.significandBits) places : ℚ) -
        (significand / 2 ^ (23 - f.significandBits) + 2 ^ f.significandBits) / 2 ^ places| ≤ 1 := by
  have hfirst := f.abs_roundSignificand_sub_le h
  have hsecond :=
    abs_roundShift_sub_le (f.roundSignificand significand + 2 ^ f.significandBits) hpos
  have htwo : (2 : ℚ) ≤ 2 ^ places := by
    exact_mod_cast Nat.pow_le_pow_right two_pos hpos
  push_cast at hsecond
  generalize (roundShift (f.roundSignificand significand + 2 ^ f.significandBits) places : ℚ) =
    shifted at hsecond ⊢
  generalize (f.roundSignificand significand : ℚ) = rounded at hfirst hsecond
  generalize (significand : ℚ) / 2 ^ (23 - f.significandBits) = exact at hfirst ⊢
  have hdown : |(rounded + 2 ^ f.significandBits) / 2 ^ places -
      (exact + 2 ^ f.significandBits) / 2 ^ places| ≤ 1 / 2 := by
    rw [← sub_div, add_sub_add_right_eq_sub, abs_div,
      abs_of_pos (by positivity : (0 : ℚ) < 2 ^ places)]
    exact div_le_div₀ zero_le_one hfirst two_pos htwo
  linarith [abs_sub_le shifted ((rounded + 2 ^ f.significandBits) / 2 ^ places)
    ((exact + 2 ^ f.significandBits) / 2 ^ places)]

/-- **Below the implied one** a number is counted in units of the last bit, and is off by one of
them at most. -/
theorem abs_encodeLow_sub_le (hbits : f.significandBits < vanishingShift) (hbias : f.bias ≤ 63)
    (hfield : (x.exponent : ℤ) - 127 + f.bias ≤ 0) :
    f.encodeLow x ≤ 2 ^ f.significandBits ∧
      |f.encodeLow x * 2 ^ (1 - (f.bias : ℤ) - f.significandBits) -
          fieldsMagnitude 127 23 x.exponent x.significand| ≤
        2 ^ (1 - (f.bias : ℤ) - f.significandBits) := by
  obtain ⟨places, hplaces⟩ : ∃ places : ℕ, (places : ℤ) = 1 - (x.exponent - 127 + f.bias) :=
    ⟨_, Int.toNat_of_nonneg (by omega)⟩
  have hpos : 0 < places := by omega
  have hunit : (0 : ℚ) < 2 ^ (1 - (f.bias : ℤ) - f.significandBits) := by positivity
  have hencode := encodeMagnitude_of_places x.significand hplaces hpos
  by_cases hvanish : vanishingShift ≤ places
  · -- The number is left out, and was less than a unit.
    have hlow : f.encodeLow x = 0 := by
      rw [encodeLow, hencode, if_pos hvanish, ite_self]
    rw [hlow, Nat.cast_zero, zero_mul, zero_sub, abs_neg, abs_of_nonneg fieldsMagnitude_nonneg]
    refine ⟨Nat.zero_le _, (fieldsMagnitude_lt_two_zpow 127 _ x.significand_lt).le.trans ?_⟩
    exact zpow_le_zpow_right₀ one_le_two (by unfold vanishingShift at *; omega)
  · have hne : x.exponent ≠ 0 := by
      unfold vanishingShift at hvanish
      omega
    have hrounded := f.roundSignificand_lt x.significand
    rw [f.encodeLow_of_exponent_ne hne, hencode, if_neg hvanish]
    refine ⟨roundShift_le hpos (by omega), ?_⟩
    have hexponent : (x.exponent : ℤ) - (127 : ℕ) =
        1 - (f.bias : ℤ) - f.significandBits + f.significandBits - places := by omega
    have hmagnitude : fieldsMagnitude 127 23 x.exponent x.significand =
        (x.significand / 2 ^ (23 - f.significandBits) + 2 ^ f.significandBits) / 2 ^ places *
          2 ^ (1 - (f.bias : ℤ) - f.significandBits) := by
      rw [fieldsMagnitude, if_neg hne, hexponent, zpow_sub₀ two_ne_zero _ (places : ℤ),
        zpow_add₀ two_ne_zero _ (f.significandBits : ℤ), zpow_natCast, zpow_natCast,
        f.two_pow_23_eq_rat]
      field_simp
      ring
    rw [hmagnitude, ← sub_mul, abs_mul, abs_of_pos hunit]
    exact mul_le_of_le_one_left hunit.le
      (f.abs_roundShift_roundSignificand_sub_le hpos x.significand_lt)

/-- **Below the range of a format the error is absolute**: one unit of the last bit. -/
theorem decode_encode_of_le (hbits : f.significandBits < vanishingShift) (hbias : f.bias ≤ 63)
    (hfield : (x.exponent : ℤ) - 127 + f.bias ≤ 0) :
    ∃ m : ℚ, (f.decode (f.encode x)).value.toRat? = some (FloatValue.signed x.negative m) ∧
      |m - fieldsMagnitude 127 23 x.exponent x.significand| ≤
        2 ^ (1 - (f.bias : ℤ) - f.significandBits) := by
  have hwidth := f.width_eq
  obtain ⟨hle, herror⟩ := abs_encodeLow_sub_le hbits hbias hfield
  have hmagnitude := magnitude_of_mod_le ((f.encode_mod x).trans_le hle)
  rw [encode_mod] at hmagnitude
  refine ⟨_, ?_, herror⟩
  have hunit : (2 : ℚ) ^ (-126 : ℤ) ≤ 2 ^ (1 - (f.bias : ℤ) - f.significandBits) :=
    zpow_le_zpow_right₀ one_le_two (by omega)
  by_cases hlow : f.encodeLow x = 0
  · rw [hlow, Nat.cast_zero, zero_mul] at hmagnitude ⊢
    rw [toRat?_decode_of_lt (by rw [hmagnitude]; positivity), FloatValue.signed_zero]
  · have hone : (1 : ℚ) ≤ f.encodeLow x := by exact_mod_cast Nat.one_le_iff_ne_zero.mpr hlow
    have hge : 2 ^ (-126 : ℤ) ≤ f.magnitude (f.encode x) := by
      rw [hmagnitude]
      exact hunit.trans (le_mul_of_one_le_left (by positivity) hone)
    have hlt : f.magnitude (f.encode x) < 2 ^ (128 : ℤ) := by
      have hle' : (f.encodeLow x : ℚ) ≤ 2 ^ f.significandBits := by exact_mod_cast hle
      calc
        _ ≤ 2 ^ f.significandBits * (2 : ℚ) ^ (1 - (f.bias : ℤ) - f.significandBits) := by
          rw [hmagnitude]
          gcongr
        _ = 2 ^ (1 - (f.bias : ℤ)) := by
          rw [← zpow_natCast, ← zpow_add₀ two_ne_zero, add_sub_cancel]
        _ < _ := zpow_lt_zpow_right₀ one_lt_two (by omega)
    rw [toRat?_decode_of_range hge hlt, patternNegative_encode, hmagnitude]

/-! ### All numbers -/

theorem lt_of_bits16 (h : f.width = .bits16) : f.significandBits < vanishingShift := by
  have hmax := f.le_max
  rw [h] at hmax
  exact Nat.lt_of_le_of_lt hmax (by decide)

theorem bias_le_of_bits16 (h : f.width = .bits16) (hbits : 8 ≤ f.significandBits) :
    f.bias ≤ 63 := by
  have hexponent : f.exponentBits - 1 ≤ 6 := by
    rw [exponentBits, h, CompactWidth.bits]
    omega
  have hpow : 2 ^ (f.exponentBits - 1) ≤ 2 ^ 6 := Nat.pow_le_pow_right two_pos hexponent
  rw [bias]
  omega

/-- **What is left of a number that is encoded and decoded again.**

* In the range of the format a normal number stays finite and keeps its sign, and the error is at
  most half a unit of the last bit, relative to the number.
* A finite number above that range, and an infinity in a format with an exponent field no wider than
  its own, is encoded to the largest finite number, with its sign.
* A finite number below the range of a format with 16 bits of which at least eight are significand
  bits is off by one unit of the last bit at most. -/
theorem decode_encode_error (f : CompactFormat) (x : Binary32) :
    (∀ v, x.IsNormal → x.value.toRat? = some v → 2 ^ (1 - (f.bias : ℤ)) ≤ |v| →
      |v| < 2 ^ ((f.bias : ℤ) + 1) →
        ∃ v', (f.decode (f.encode x)).value.toRat? = some v' ∧
          (f.decode (f.encode x)).negative = x.negative ∧
          |v' - v| * 2 ^ (f.significandBits + 1) ≤ |v|) ∧
      ((∃ v, x.value.toRat? = some v ∧ 2 ^ ((f.bias : ℤ) + 1) ≤ |v|) ∨
          x.value = .infinite x.negative ∧ f.bias ≤ 127 →
        f.encode x = x.negative.toNat * 2 ^ (f.width.bits - 1) + f.maxPattern) ∧
      (∀ v, f.width = .bits16 → 8 ≤ f.significandBits → x.value.toRat? = some v →
        |v| < 2 ^ (1 - (f.bias : ℤ)) →
          ∃ v', (f.decode (f.encode x)).value.toRat? = some v' ∧
            |v' - v| ≤ 2 ^ (1 - (f.bias : ℤ) - f.significandBits)) := by
  have hsignificand := x.significand_lt
  refine ⟨fun v hnormal hv hge hlt => ?_, ?_, fun v hwidth hbits hv hlt => ?_⟩
  · rw [Binary32.abs_eq_of_toRat? hv] at hge hlt ⊢
    have hlow := lt_of_two_zpow_le hsignificand hge
    have hhigh := lt_of_lt_two_zpow hnormal.1 hsignificand hlt
    obtain ⟨field, hfield⟩ : ∃ field : ℕ, (field : ℤ) = x.exponent - 127 + f.bias :=
      ⟨_, Int.toNat_of_nonneg (by omega)⟩
    obtain ⟨m, hm, herror⟩ := decode_encode_of_field hnormal hfield (by omega) (by omega)
    refine ⟨_, hm, ?_, ?_⟩
    · rw [negative_decode, patternNegative_encode]
    · rwa [Binary32.eq_signed_of_toRat? hv, FloatValue.abs_signed_sub]
  · rintro (⟨v, hv, hge⟩ | ⟨hinfinite, hbias⟩)
    · rw [Binary32.abs_eq_of_toRat? hv] at hge
      have hlow := lt_of_two_zpow_le hsignificand hge
      rw [encode_eq, f.encodeLow_of_exponent_ne (by omega), encodeMagnitude_of_lt _ (by omega)]
    · have hexponent := Binary32.exponent_eq_of_infinite hinfinite
      rw [encode_eq, f.encodeLow_of_exponent_ne (by omega), encodeMagnitude_of_lt _ (by omega)]
  · rw [Binary32.abs_eq_of_toRat? hv] at hlt
    have hbias := bias_le_of_bits16 hwidth hbits
    have hfield : (x.exponent : ℤ) - 127 + f.bias ≤ 0 := by
      by_cases hne : x.exponent = 0
      · omega
      · have hhigh := lt_of_lt_two_zpow hne hsignificand hlt
        omega
    obtain ⟨m, hm, herror⟩ := decode_encode_of_le (lt_of_bits16 hwidth) hbias hfield
    exact ⟨_, hm, by rwa [Binary32.eq_signed_of_toRat? hv, FloatValue.abs_signed_sub]⟩

/-- With ten significand bits: one third, two numbers that are too large, and a small one. -/
theorem decode_encode_error_ten_bits :
    ∃ f : CompactFormat, f.width = .bits16 ∧ f.significandBits = 10 ∧
      (∃ v', (f.decode (f.encode (.ofFields false 125 0x2AAAAB))).value.toRat? = some v' ∧
        |v' - 11184811 / 2 ^ 25| * 2 ^ 11 ≤ 11184811 / 2 ^ 25) ∧
      f.encode (.ofFields true 143 0) = 2 ^ 15 + f.maxPattern ∧
      f.encode (.ofFields true 255 0) = 2 ^ 15 + f.maxPattern ∧
      ∃ v', (f.decode (f.encode (.ofFields false 106 0))).value.toRat? = some v' ∧
        |v' - 2 ^ (-21 : ℤ)| ≤ 2 ^ (-24 : ℤ) := by
  obtain ⟨f, hf⟩ : ∃ f : CompactFormat, f = ⟨.bits16, 10, by decide, by decide⟩ := ⟨_, rfl⟩
  have hwidth : f.width = .bits16 := by rw [hf]
  have hbits : f.significandBits = 10 := by rw [hf]
  have hbias : f.bias = 15 := by rw [hf]; decide
  have hthird : (Binary32.ofFields false 125 0x2AAAAB).value.toRat? =
      some (11184811 / 2 ^ 25) := by
    rw [Binary32.toRat?_value_ofFields (by decide) (by decide)]
    norm_num [FloatValue.signed, fieldsMagnitude]
  have hlarge : (Binary32.ofFields true 143 0).value.toRat? = some (-2 ^ (16 : ℤ)) := by
    rw [Binary32.toRat?_value_ofFields (by decide) (by decide)]
    norm_num [FloatValue.signed, fieldsMagnitude]
  have hsmall : (Binary32.ofFields false 106 0).value.toRat? = some (2 ^ (-21 : ℤ)) := by
    rw [Binary32.toRat?_value_ofFields (by decide) (by decide)]
    norm_num [FloatValue.signed, fieldsMagnitude]
  have hnormal : (Binary32.ofFields false 125 0x2AAAAB).IsNormal := by
    rw [Binary32.IsNormal, Binary32.exponent_ofFields (by decide) (by decide)]
    decide
  have hnegative : ∀ {e}, e < 2 ^ 8 → (Binary32.ofFields true e 0).negative = true := fun he =>
    Binary32.negative_ofFields he (by decide)
  obtain ⟨hrange, -, -⟩ := f.decode_encode_error (.ofFields false 125 0x2AAAAB)
  obtain ⟨-, hfinite, -⟩ := f.decode_encode_error (.ofFields true 143 0)
  obtain ⟨-, hinfinite, -⟩ := f.decode_encode_error (.ofFields true 255 0)
  obtain ⟨-, -, hbelow⟩ := f.decode_encode_error (.ofFields false 106 0)
  rw [hbias] at hrange hfinite hinfinite hbelow
  rw [hwidth, hnegative (by decide)] at hfinite hinfinite
  refine ⟨f, hwidth, hbits, ?_, ?_, ?_, ?_⟩
  · obtain ⟨v', hv', -, herror⟩ := hrange _ hnormal hthird (by norm_num) (by norm_num)
    rw [hbits, abs_of_pos (by norm_num : (0 : ℚ) < 11184811 / 2 ^ 25)] at herror
    exact ⟨v', hv', herror⟩
  · exact hfinite (.inl ⟨_, hlarge, by norm_num⟩)
  · exact hinfinite (.inr ⟨Binary32.value_ofFields_infinite true, by decide⟩)
  · obtain ⟨v', hv', herror⟩ := hbelow _ hwidth (by omega) hsmall (by norm_num)
    rw [hbits] at herror
    exact ⟨v', hv', by norm_num at herror ⊢; exact herror⟩

end WireCodec.CompactFormat
