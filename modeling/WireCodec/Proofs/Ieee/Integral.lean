import WireCodec.Number.Binary64
import WireCodec.Proofs.Ieee.Magnitude
import WireCodec.Proofs.Ieee.Repacking
import WireCodec.Proofs.Number.Rational

/-!
# Rounding to integral floating point numbers

`WireCodec.roundFloat` adds half a unit to a mantissa, cuts off the bits below the unit, and makes a
floating point number again from what is left. That is `2 ^ 52` at most, so that the number stands
for exactly this (`WireCodec.ofFloat_floatOfMagnitude`). Hence rounding goes to the nearest integer
(`WireCodec.toRat?_roundFloat`), and to round once more changes nothing
(`WireCodec.roundFloat_roundFloat`), not even the sign of a zero.
-/

namespace WireCodec

/-! ### The fields of a pattern -/

namespace Binary64

variable {negative : Bool} {exponent significand : ℕ}

section Fields

variable (he : exponent < 2 ^ 11) (hs : significand < 2 ^ 52)
include he hs

theorem toNat_bits_ofFields : (ofFields negative exponent significand).bits.toNat =
    negative.toNat * 2 ^ 63 + exponent * 2 ^ 52 + significand := by
  have hn := Bool.toNat_le negative
  rw [ofFields, UInt64.toNat_ofNat_of_lt']
  rw [UInt64.size]
  omega

theorem negative_ofFields : (ofFields negative exponent significand).negative = negative := by
  rw [Binary64.negative, toNat_bits_ofFields he hs, Nat.testBit_eq_decide_div_mod_eq]
  cases negative <;> simp <;> omega

theorem exponent_ofFields : (ofFields negative exponent significand).exponent = exponent := by
  have hn := Bool.toNat_le negative
  rw [Binary64.exponent, toNat_bits_ofFields he hs]
  omega

theorem significand_ofFields :
    (ofFields negative exponent significand).significand = significand := by
  have hn := Bool.toNat_le negative
  rw [Binary64.significand, toNat_bits_ofFields he hs]
  omega

theorem value_ofFields : (ofFields negative exponent significand).value =
    .ofFields 11 52 negative exponent significand := by
  rw [value, negative_ofFields he hs, exponent_ofFields he hs, significand_ofFields he hs]

end Fields

end Binary64

/-! ### Integral numbers -/

section Natural

variable {n : ℕ} (hle : n ≤ 2 ^ 52) (negative : Bool)
include hle

theorem log2_le_of_le : n.log2 ≤ 52 := by
  rcases Nat.eq_zero_or_pos n with rfl | hpos
  · decide
  · have hlt : n.log2 < 53 := (Nat.log2_lt hpos.ne').mpr (by omega)
    omega

/-- The pattern of a natural number that is not too large. -/
theorem ofMagnitude_natural (hpos : 0 < n) : Binary64.ofMagnitude negative n 0 =
    .ofFields negative (n.log2 + 1023) (n * 2 ^ (52 - n.log2) - 2 ^ 52) := by
  have hlog := log2_le_of_le hle
  have hleading := two_pow_le_mul_two_pow hpos
  have hlast : max (0 + (n.log2 : ℤ) - 52) (-1074) = n.log2 - 52 := by omega
  have hbelow : (n.log2 : ℤ) - 52 ≤ 0 := by omega
  have hplaces : (0 - ((n.log2 : ℤ) - 52)).toNat = 52 - n.log2 := by omega
  have hfield : ((n.log2 : ℤ) - 52 + 1075).toNat = n.log2 + 1023 := by omega
  rw [Binary64.ofMagnitude, if_neg hpos.ne', hlast]
  simp only [if_pos hbelow, hplaces, hfield]
  rw [if_neg (Nat.not_lt.mpr hleading)]

/-- **A natural number as a floating point number** is that number, shifted up to its full length
unless it is zero. -/
theorem ofFloat_floatOfMagnitude (hpos : 0 < n) :
    FloatValue.ofFloat (floatOfMagnitude negative n 0) =
      .finite negative (n * 2 ^ (52 - n.log2)) (n.log2 - 52) := by
  have hlog := log2_le_of_le hle
  have hleading := two_pow_le_mul_two_pow hpos
  have hlt := mul_two_pow_lt hpos (by omega)
  have he : n.log2 + 1023 < 2 ^ 11 := by omega
  have hs : n * 2 ^ (52 - n.log2) - 2 ^ 52 < 2 ^ 52 := by omega
  have hmantissa : 2 ^ 52 + (n * 2 ^ (52 - n.log2) - 2 ^ 52) = n * 2 ^ (52 - n.log2) :=
    Nat.add_sub_of_le hleading
  have hexponent : (2 : ℤ) - 2 ^ (11 - 1) - (52 : ℕ) + ((n.log2 + 1023 : ℕ) - 1) = n.log2 - 52 := by
    omega
  rw [floatOfMagnitude, ofMagnitude_natural hle negative hpos, ofFloat_ofBits]
  · rw [Binary64.value_ofFields he hs, FloatValue.ofFields, if_neg (by omega), if_neg (by omega)]
    simp only [hmantissa, hexponent]
  · rw [Binary64.exponent_ofFields he hs]
    omega

end Natural

theorem ofFloat_floatOfMagnitude_zero (negative : Bool) :
    FloatValue.ofFloat (floatOfMagnitude negative 0 0) = .finite negative 0 (-1074) := by
  cases negative <;> rfl

/-! ### Rounding to an integral number -/

/-- The mantissa of a number has at most 53 bits. -/
theorem Binary64.mantissa_lt {x : Binary64} {negative : Bool} {mantissa : ℕ} {exponent : ℤ}
    (h : x.value = .finite negative mantissa exponent) : mantissa < 2 ^ 53 := by
  have hsignificand : x.significand < 2 ^ 52 := Nat.mod_lt _ (Nat.two_pow_pos _)
  rw [value, FloatValue.ofFields] at h
  split at h
  · split at h <;> cases h
  · split at h <;> cases h <;> omega

section Rounding

variable {n mantissa places : ℕ} {exponent : ℤ} {negative : Bool} {x : Float} {q : ℚ}

/-- A number without a fraction, by its exponent, is not rounded. -/
theorem roundFloat_of_nonneg (h : FloatValue.ofFloat x = .finite negative mantissa exponent)
    (hexponent : 0 ≤ exponent) : roundFloat x = x := by
  rw [roundFloat, h]
  exact if_pos hexponent

theorem roundFloat_of_places (h : FloatValue.ofFloat x = .finite negative mantissa (-places))
    (hplaces : 0 < places) : roundFloat x =
      floatOfMagnitude negative ((mantissa + 2 ^ (places - 1)) / 2 ^ places) 0 := by
  have hneg : ¬ (0 : ℤ) ≤ -places := by omega
  have hnat : (- -(places : ℤ)).toNat = places := by omega
  rw [roundFloat, h]
  simp only [if_neg hneg, hnat]

/-- What is left of 53 bits when at least one of them is cut off. -/
theorem rounded_le (hmantissa : mantissa < 2 ^ 53) (hplaces : 0 < places) :
    (mantissa + 2 ^ (places - 1)) / 2 ^ places ≤ 2 ^ 52 := by
  obtain ⟨k, rfl⟩ := Nat.exists_eq_add_one.mpr hplaces
  have hpow : 0 < 2 ^ k := Nat.two_pow_pos k
  rw [Nat.add_sub_cancel, Nat.div_le_iff_le_mul_add_pred (Nat.two_pow_pos _), Nat.pow_succ]
  omega

theorem roundFloat_floatOfMagnitude (negative : Bool) (hle : n ≤ 2 ^ 52) :
    roundFloat (floatOfMagnitude negative n 0) = floatOfMagnitude negative n 0 := by
  rcases Nat.eq_zero_or_pos n with rfl | hpos
  · obtain ⟨places, hexponent, hplaces⟩ : ∃ places : ℕ, (-1074 : ℤ) = -places ∧ 0 < places :=
      ⟨1074, rfl, by decide⟩
    have hvalue := ofFloat_floatOfMagnitude_zero negative
    rw [hexponent] at hvalue
    rw [roundFloat_of_places hvalue hplaces, Nat.zero_add,
      Nat.div_eq_of_lt (Nat.two_pow_pred_lt_two_pow hplaces)]
  · have hlog := log2_le_of_le hle
    have hvalue := ofFloat_floatOfMagnitude hle negative hpos
    rcases hlog.eq_or_lt with hfull | hshort
    · exact roundFloat_of_nonneg hvalue (by omega)
    · have hexponent : (n.log2 : ℤ) - 52 = -(52 - n.log2 : ℕ) := by omega
      have hplaces : 0 < 52 - n.log2 := by omega
      rw [hexponent] at hvalue
      rw [roundFloat_of_places hvalue hplaces, Nat.add_comm,
        Nat.add_mul_div_right _ _ (Nat.two_pow_pos _),
        Nat.div_eq_of_lt (Nat.two_pow_pred_lt_two_pow hplaces), Nat.zero_add]

/-- **Rounding twice** is rounding once. -/
theorem roundFloat_roundFloat (x : Float) : roundFloat (roundFloat x) = roundFloat x := by
  cases hvalue : FloatValue.ofFloat x with
  | finite negative mantissa exponent =>
    by_cases hexponent : 0 ≤ exponent
    · rw [roundFloat_of_nonneg hvalue hexponent, roundFloat_of_nonneg hvalue hexponent]
    · obtain ⟨places, rfl⟩ : ∃ places : ℕ, exponent = -places := ⟨exponent.natAbs, by omega⟩
      have hplaces : 0 < places := by omega
      rw [roundFloat_of_places hvalue hplaces, roundFloat_floatOfMagnitude negative
        (rounded_le (Binary64.mantissa_lt hvalue) hplaces)]
  | _ =>
    have hself : roundFloat x = x := by rw [roundFloat, hvalue]
    rw [hself, hself]

/-- A natural number is worth itself as a floating point number. -/
theorem toRat?_floatOfMagnitude (negative : Bool) (hle : n ≤ 2 ^ 52) :
    (FloatValue.ofFloat (floatOfMagnitude negative n 0)).toRat? =
      some (FloatValue.signed negative n) := by
  rcases Nat.eq_zero_or_pos n with rfl | hpos
  · rw [ofFloat_floatOfMagnitude_zero, FloatValue.toRat?, Nat.cast_zero, zero_mul]
  · have hlog := log2_le_of_le hle
    have hshift := mul_zpow_eq_shift n (52 - n.log2) 0
    have hexponent : (0 : ℤ) - (52 - n.log2 : ℕ) = n.log2 - 52 := by omega
    rw [zpow_zero, mul_one, hexponent] at hshift
    rw [ofFloat_floatOfMagnitude hle negative hpos, FloatValue.toRat?, ← hshift]

/-- Half a unit is added before the fraction is cut off. -/
theorem floor_add_half (mantissa : ℕ) (hplaces : 0 < places) :
    ⌊(mantissa : ℚ) * 2 ^ (-(places : ℤ)) + 1 / 2⌋₊ =
      (mantissa + 2 ^ (places - 1)) / 2 ^ places := by
  obtain ⟨k, rfl⟩ := Nat.exists_eq_add_one.mpr hplaces
  have hsum : (mantissa : ℚ) * 2 ^ (-((k + 1 : ℕ) : ℤ)) + 1 / 2 =
      ((mantissa + 2 ^ k : ℕ) : ℚ) / ((2 ^ (k + 1) : ℕ) : ℚ) := by
    rw [zpow_neg, zpow_natCast]
    push_cast
    field_simp
    ring
  rw [hsum, Nat.floor_div_eq_div, Nat.add_sub_cancel]

/-- **Rounding goes by the magnitude.** -/
theorem roundAway_signed (negative : Bool) (h : 0 ≤ q) :
    (roundAway (FloatValue.signed negative q) : ℚ) =
      FloatValue.signed negative (⌊q + 1 / 2⌋₊ : ℚ) := by
  have hcast : ((⌊q + 1 / 2⌋₊ : ℕ) : ℚ) = (⌊q + 1 / 2⌋ : ℤ) := by
    exact_mod_cast Int.natCast_floor_eq_floor (by linarith)
  rw [hcast]
  cases negative with
  | false =>
    simp only [FloatValue.signed, Bool.false_eq_true, if_false]
    rw [roundAway, if_pos h]
  | true =>
    simp only [FloatValue.signed, if_true]
    rcases h.eq_or_lt with rfl | hpos
    · norm_num [roundAway]
    · rw [roundAway, if_neg (by linarith), ← Int.cast_neg, ← Int.ceil_neg, neg_add']

/-- **A number is rounded to the nearest integer**, away from zero if there are two, and what is no
number stays none. -/
theorem toRat?_roundFloat (x : Float) : (FloatValue.ofFloat (roundFloat x)).toRat? =
    (FloatValue.ofFloat x).toRat?.map fun q => (roundAway q : ℚ) := by
  cases hvalue : FloatValue.ofFloat x with
  | finite negative mantissa exponent =>
    rw [FloatValue.toRat?, Option.map_some]
    by_cases hexponent : 0 ≤ exponent
    · -- The number is an integer of its own.
      obtain ⟨shift, rfl⟩ := Int.eq_ofNat_of_zero_le hexponent
      have hinteger : FloatValue.signed negative ((mantissa : ℚ) * 2 ^ (shift : ℤ)) =
          ((if negative then -(mantissa * 2 ^ shift) else mantissa * 2 ^ shift : ℤ) : ℚ) := by
        cases negative <;> simp [FloatValue.signed]
      rw [roundFloat_of_nonneg hvalue hexponent, hvalue, FloatValue.toRat?, hinteger,
        roundAway_intCast]
    · obtain ⟨places, rfl⟩ : ∃ places : ℕ, exponent = -places := ⟨exponent.natAbs, by omega⟩
      have hplaces : 0 < places := by omega
      rw [roundFloat_of_places hvalue hplaces, toRat?_floatOfMagnitude negative
        (rounded_le (Binary64.mantissa_lt hvalue) hplaces), roundAway_signed negative
        (by positivity), floor_add_half mantissa hplaces]
  | _ =>
    have hself : roundFloat x = x := by rw [roundFloat, hvalue]
    rw [hself, hvalue]
    rfl

end Rounding

/-- Zero is not rounded. -/
theorem roundFloat_ofInt_zero : roundFloat (Float.ofInt 0) = Float.ofInt 0 := by
  have hzero : Float.ofInt 0 = floatOfMagnitude false 0 0 := rfl
  rw [hzero, roundFloat_floatOfMagnitude false (Nat.zero_le _)]

end WireCodec
