import WireCodec.Proofs.CompactFloat.Decoding
import WireCodec.Proofs.CompactFloat.Range

/-!
# Encoding and decoding keep numbers in order

Both ways a number of greater magnitude never becomes one of smaller magnitude.

For encoding, one exponent is taken at a time. Within it, a larger significand is rounded to a
larger one. From it to the next, *any* significand ends up at least as high
(`WireCodec.CompactFormat.encodeMagnitude_le_succ`), whichever way the two exponents go: both
without an implied one, so that the next is shifted down by one place less, or across to the implied
one, or with it, or into the largest finite number. Exponents further apart are as many such
steps.

Decoding goes by the exact magnitude of a pattern, which is in the order of the bits below the sign,
and zeros and infinities are at the ends of it (`WireCodec.CompactFormat.low_decode_le`).

As the sign is copied by both, all of this holds of numbers with a sign as well
(`WireCodec.CompactFormat.value_decode_encode_le`).
-/

namespace WireCodec.CompactFormat

variable {f : CompactFormat} {x y : Binary32}
  {pattern pattern' exponent exponent' significand significand' places n m : ℕ}

/-! ### Rounding -/

theorem roundShift_mono (places : ℕ) (h : n ≤ m) : roundShift n places ≤ roundShift m places :=
  Nat.div_le_div_right (Nat.add_le_add_right h _)

/-- One place more takes off what twice the number has more. -/
theorem roundShift_succ_le (hpos : 0 < places) (h : n ≤ 2 * m) :
    roundShift n (places + 1) ≤ roundShift m places := by
  obtain ⟨k, rfl⟩ : ∃ k, places = k + 1 := ⟨places - 1, by omega⟩
  have hhalf : n + 2 ^ (k + 1) ≤ (m + 2 ^ k) * 2 := by
    rw [Nat.pow_succ]
    omega
  calc
    roundShift n (k + 1 + 1) ≤ (m + 2 ^ k) * 2 / 2 ^ (k + 1 + 1) := Nat.div_le_div_right hhalf
    _ = (m + 2 ^ k) / 2 ^ (k + 1) := by
      rw [Nat.pow_succ 2 (k + 1), Nat.mul_div_mul_right _ _ two_pos]

theorem roundSignificand_mono (f : CompactFormat) (h : significand ≤ significand') :
    f.roundSignificand significand ≤ f.roundSignificand significand' :=
  min_le_min_right _ (roundShift_mono _ h)

/-! ### Encoding -/

/-- Within an exponent larger significands are encoded to larger magnitudes. -/
theorem encodeMagnitude_mono (f : CompactFormat) (exponent : ℕ) (h : significand ≤ significand') :
    f.encodeMagnitude exponent significand ≤ f.encodeMagnitude exponent significand' := by
  have hrounded := f.roundSignificand_mono h
  rcases f.exponent_cases exponent with ⟨places, hpos, hplaces⟩ | ⟨field, hpos, hle, hfield⟩ | hlt
  · rw [encodeMagnitude_of_places _ hplaces hpos, encodeMagnitude_of_places _ hplaces hpos]
    split
    · exact le_refl _
    · exact roundShift_mono places (Nat.add_le_add_right hrounded _)
  · rw [encodeMagnitude_of_field _ hfield hpos hle, encodeMagnitude_of_field _ hfield hpos hle]
    exact Nat.add_le_add_left hrounded _
  · rw [encodeMagnitude_of_lt _ hlt, encodeMagnitude_of_lt _ hlt]

/-- The implied one of the least exponent that has it is above all that is shifted down. -/
theorem roundShift_le_encodeMagnitude (significand' : ℕ) (hpos : 0 < places)
    (hn : n < 2 * 2 ^ f.significandBits) (hfield : (exponent : ℤ) - 127 + f.bias = 1) :
    roundShift n places ≤ f.encodeMagnitude exponent significand' := by
  have hbias := f.three_le_bias
  rw [encodeMagnitude_of_field significand' (by rw [hfield, Nat.cast_one]) one_pos (by omega)]
  have hround := roundShift_le hpos hn
  omega

/-- **From an exponent to the next** no significand is encoded to a smaller magnitude. -/
theorem encodeMagnitude_le_succ (f : CompactFormat) (exponent significand significand' : ℕ) :
    f.encodeMagnitude exponent significand ≤ f.encodeMagnitude (exponent + 1) significand' := by
  have hrounded := f.roundSignificand_lt significand
  rcases f.exponent_cases exponent with ⟨places, hpos, hplaces⟩ | ⟨field, hpos, hle, hfield⟩ | hlt
  · rw [encodeMagnitude_of_places significand hplaces hpos]
    split
    · exact Nat.zero_le _
    rcases Nat.lt_or_eq_of_le (Nat.one_le_iff_ne_zero.mpr hpos.ne') with hmore | hone
    · obtain ⟨rest, rfl⟩ : ∃ rest, places = rest + 1 := ⟨places - 1, by omega⟩
      have hrest : (rest : ℤ) = 1 - ((exponent + 1 : ℕ) - 127 + f.bias) := by omega
      rw [encodeMagnitude_of_places significand' hrest (by omega), if_neg (by omega)]
      exact roundShift_succ_le (by omega) (by omega)
    · exact roundShift_le_encodeMagnitude significand' hpos (by omega) (by omega)
  · rw [encodeMagnitude_of_field significand hfield hpos hle]
    rcases Nat.lt_or_eq_of_le hle with hmore | hlast
    · have hnext : ((field + 1 : ℕ) : ℤ) = (exponent + 1 : ℕ) - 127 + f.bias := by omega
      rw [encodeMagnitude_of_field significand' hnext (by omega) hmore, Nat.succ_mul]
      omega
    · rw [encodeMagnitude_of_lt significand' (by omega),
        ← encodeMagnitude_of_field significand hfield hpos hle]
      exact f.encodeMagnitude_le_maxPattern _ _
  · rw [encodeMagnitude_of_lt significand' (by omega)]
    exact f.encodeMagnitude_le_maxPattern _ _

/-- **Encoding keeps fields in order**, read as one number. -/
theorem encodeMagnitude_le (f : CompactFormat) (hlt' : significand' < 2 ^ 23)
    (h : exponent * 2 ^ 23 + significand ≤ exponent' * 2 ^ 23 + significand') :
    f.encodeMagnitude exponent significand ≤ f.encodeMagnitude exponent' significand' := by
  rcases (exponent_le_of_joined_le hlt' h).eq_or_lt with rfl | hlt
  · exact f.encodeMagnitude_mono exponent (by omega)
  · have hsteps : Monotone fun exponent => f.encodeMagnitude exponent 0 :=
      monotone_nat_of_le_succ fun exponent => f.encodeMagnitude_le_succ exponent 0 0
    calc
      f.encodeMagnitude exponent significand ≤ f.encodeMagnitude (exponent + 1) 0 :=
        f.encodeMagnitude_le_succ exponent significand 0
      _ ≤ f.encodeMagnitude exponent' 0 := hsteps hlt
      _ ≤ f.encodeMagnitude exponent' significand' :=
        f.encodeMagnitude_mono exponent' (Nat.zero_le _)

/-- **Encoding keeps the bits below the sign in order.** -/
theorem encodeLow_le (f : CompactFormat) (h : x.low ≤ y.low) : f.encodeLow x ≤ f.encodeLow y := by
  unfold Binary32.low at h
  unfold encodeLow
  split
  · exact Nat.zero_le _
  · rw [if_neg (by omega)]
    exact f.encodeMagnitude_le y.significand_lt h

/-- Without bits below the sign there are none afterwards. -/
theorem encodeLow_eq_zero (h : x.low = 0) : f.encodeLow x = 0 := by
  unfold Binary32.low at h
  exact if_pos ⟨by omega, by omega⟩

/-! ### Decoding -/

/-- **Decoding keeps magnitudes in order.** -/
theorem low_decode_le (h : f.magnitude pattern ≤ f.magnitude pattern') :
    (f.decode pattern).low ≤ (f.decode pattern').low := by
  rcases lt_or_ge (f.magnitude pattern) (2 ^ (-126 : ℤ)) with hlow | hge
  · rw [decode_of_lt hlow, Binary32.low_ofFields (by decide) (by decide)]
    exact Nat.zero_le _
  rcases le_or_gt (2 ^ (128 : ℤ)) (f.magnitude pattern') with hhigh | hlt'
  · rw [decode_of_ge hhigh, Binary32.low_ofFields (by decide) (by decide)]
    exact (f.isNumber_decode pattern).low_le
  · -- Both magnitudes are kept.
    obtain ⟨exponent, significand, he, hs, hdecode, hmagnitude⟩ :=
      exists_decode_eq_of_range hge (h.trans_lt hlt')
    obtain ⟨exponent', significand', he', hs', hdecode', hmagnitude'⟩ :=
      exists_decode_eq_of_range (hge.trans h) hlt'
    rw [← hmagnitude, ← hmagnitude', fieldsMagnitude_le_iff hs hs'] at h
    rwa [hdecode, hdecode', Binary32.low_ofFields (by omega) hs,
      Binary32.low_ofFields (by omega) hs']

/-- The least magnitude is decoded to the least one. -/
theorem low_decode_eq_zero (h : pattern % 2 ^ (f.width.bits - 1) = 0) :
    (f.decode pattern).low = 0 := by
  have hzero : f.IsZero pattern := by
    have hpos := Nat.two_pow_pos f.significandBits
    rw [← joined_fields, Nat.add_eq_zero_iff, Nat.mul_eq_zero] at h
    exact ⟨h.1.resolve_right hpos.ne', h.2⟩
  rw [decode_of_isZero hzero, Binary32.low_ofFields (by decide) (by decide)]

/-! ### Both -/

/-- **What is left of numbers is in the order of the numbers.** -/
theorem value_decode_encode_le (h : x.value ≤ y.value) :
    (f.decode (f.encode x)).value ≤ (f.decode (f.encode y)).value := by
  have hkeep : ∀ {x y : Binary32}, x.low ≤ y.low →
      (f.decode (f.encode x)).low ≤ (f.decode (f.encode y)).low := fun hle =>
    low_decode_le (magnitude_le_iff.mpr (by
      rw [encode_mod, encode_mod]
      exact f.encodeLow_le hle))
  have hzero : ∀ {x : Binary32}, x.low = 0 → (f.decode (f.encode x)).low = 0 := fun hlow =>
    low_decode_eq_zero (by rw [encode_mod, encodeLow_eq_zero hlow])
  obtain ⟨-, -, hsigned⟩ := Binary32.value_le_iff.mp h
  refine Binary32.value_le_iff.mpr ⟨f.isNumber_decode _, f.isNumber_decode _, ?_⟩
  rw [negative_decode, negative_decode, patternNegative_encode, patternNegative_encode]
  exact hsigned.imp hkeep hkeep hzero hzero

/-- **Encoding and decoding keep numbers in order.** A number that is not larger in magnitude is
encoded to a pattern that is not larger below its sign, and a pattern that is not larger below its
sign is decoded to a number that is not larger in magnitude. Both copy the sign bit, so that a
number that is not larger than another leaves no larger one when both are encoded and decoded
again. -/
theorem encode_decode_monotone (f : CompactFormat) :
    (∀ x y : Binary32, x.value.abs ≤ y.value.abs →
        f.encode x % 2 ^ (f.width.bits - 1) ≤ f.encode y % 2 ^ (f.width.bits - 1)) ∧
      (∀ p q : ℕ, p % 2 ^ (f.width.bits - 1) ≤ q % 2 ^ (f.width.bits - 1) →
        (f.decode p).value.abs ≤ (f.decode q).value.abs) ∧
      (∀ x : Binary32, (f.encode x).testBit (f.width.bits - 1) = x.negative) ∧
      (∀ p : ℕ, (f.decode p).negative = p.testBit (f.width.bits - 1)) ∧
      ∀ x y : Binary32, x.value ≤ y.value →
        (f.decode (f.encode x)).value ≤ (f.decode (f.encode y)).value := by
  refine ⟨fun x y h => ?_, fun p q h => ?_, f.patternNegative_encode, f.negative_decode,
    fun x y => value_decode_encode_le⟩
  · rw [encode_mod, encode_mod]
    exact f.encodeLow_le (Binary32.abs_value_le_iff.mp h).2.2
  · exact Binary32.abs_value_le_iff.mpr
      ⟨f.isNumber_decode p, f.isNumber_decode q, low_decode_le (magnitude_le_iff.mpr h)⟩

/-- With ten significand bits: one and minus two, and two patterns without an implied one. -/
theorem encode_decode_monotone_ten_bits :
    ∃ f : CompactFormat, f.width = .bits16 ∧ f.significandBits = 10 ∧
      f.encode (.ofFields false 127 0) % 2 ^ 15 ≤ f.encode (.ofFields true 128 0) % 2 ^ 15 ∧
      (f.decode 1).value.abs ≤ (f.decode 0x8002).value.abs ∧
      (f.decode (f.encode (.ofFields true 128 0))).value ≤
        (f.decode (f.encode (.ofFields false 127 0))).value := by
  have habs :
      (Binary32.ofFields false 127 0).value.abs ≤ (Binary32.ofFields true 128 0).value.abs :=
    Binary32.abs_value_le_iff.mpr ⟨by decide, by decide, by decide⟩
  have hvalue : (Binary32.ofFields true 128 0).value ≤ (Binary32.ofFields false 127 0).value :=
    Binary32.value_le_iff.mpr ⟨by decide, by decide, trivial⟩
  obtain ⟨hencode, hdecode, -, -, hboth⟩ :=
    encode_decode_monotone ⟨.bits16, 10, by decide, by decide⟩
  exact ⟨_, rfl, rfl, hencode _ _ habs, hdecode 1 0x8002 (by decide), hboth _ _ hvalue⟩

end WireCodec.CompactFormat
