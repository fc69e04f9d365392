import WireCodec.Proofs.CompactFloat.RoundTrip
import WireCodec.Proofs.Ieee.Magnitude

/-!
# What decoding a compact pattern gives

The exact magnitude of a compact pattern is a rational number
(`WireCodec.CompactFormat.magnitude`), and a 32-bit pattern has room for some of them only. So
there are three cases (`WireCodec.CompactFormat.decode_cases`): a magnitude below that of the least
normal number becomes a zero, one above all finite numbers becomes an infinity, and any other one is
kept as it is, in a normal number. The sign is always copied.

A significand without an implied one is shifted up until its leading one is in the place of the
implied one. `WireCodec.CompactFormat.normalize` says in one step where that ends;
`WireCodec.ShiftsUp` is the loop, one shift at a time in a word of 32 bits, and it ends there for
every significand but zero (`WireCodec.CompactFormat.exists_shiftsUp`).
-/

namespace WireCodec

/-! ### Shifting up -/

/-- **The loop that brings a leading one into place**: while the bit at the place of the implied one
is clear, the word is shifted up and the exponent goes down by one. `ShiftsUp bits e w e' w'` says
that the loop, started in `e` and `w`, ends in `e'` and `w'`. -/
inductive ShiftsUp (bits : ℕ) : ℤ → ℕ → ℤ → ℕ → Prop
  /-- The bit is set. -/
  | stop {exponent : ℤ} {word : ℕ} (hset : word.testBit bits = true) :
      ShiftsUp bits exponent word exponent word
  /-- The bit is clear, and the loop goes on. -/
  | next {exponent leading : ℤ} {word shifted : ℕ} (hclear : word.testBit bits = false)
      (hnext : ShiftsUp bits (exponent - 1) (word * 2 % 2 ^ 32) leading shifted) :
      ShiftsUp bits exponent word leading shifted

/-- **The loop ends** after as many shifts as the leading one is away from its place. -/
theorem shiftsUp_of_bounds {bits places word : ℕ} {exponent : ℤ} (hbits : bits < 31)
    (hle : 2 ^ bits ≤ word * 2 ^ places) (hlt : word * 2 ^ places < 2 * 2 ^ bits) :
    ShiftsUp bits exponent word (exponent - places) (word * 2 ^ places) := by
  induction places generalizing exponent word with
  | zero =>
    rw [Nat.pow_zero, Nat.mul_one] at hle hlt ⊢
    have hone : word / 2 ^ bits = 1 := Nat.div_eq_of_lt_le (by omega) (by omega)
    have hset : word.testBit bits = true := by
      rw [Nat.testBit_eq_decide_div_mod_eq, hone]
      rfl
    rw [Nat.cast_zero, sub_zero]
    exact .stop hset
  | succ places ih =>
    have hword : word * 2 ^ (places + 1) = word * 2 * 2 ^ places := by
      rw [Nat.pow_succ]
      ring
    have hexponent : exponent - (places + 1 : ℕ) = exponent - 1 - places := by omega
    rw [hword] at hle hlt ⊢
    have hlow : word < 2 ^ bits := by
      have hpos := Nat.two_pow_pos places
      nlinarith
    have hfits : word * 2 % 2 ^ 32 = word * 2 := by
      have hroom : 2 ^ bits ≤ 2 ^ 31 := Nat.pow_le_pow_right (by decide) (by omega)
      exact Nat.mod_eq_of_lt (by omega)
    rw [hexponent]
    refine .next (Nat.testBit_lt_two_pow hlow) ?_
    rw [hfits]
    exact ih hle hlt

/-! ### The values of fields -/

namespace Binary32

variable {negative : Bool} {exponent significand : ℕ}

/-- The number of a finite pattern that is made of fields. -/
theorem toRat?_value_ofFields (he : exponent < 255) (hs : significand < 2 ^ 23) :
    (ofFields negative exponent significand).value.toRat? =
      some (FloatValue.signed negative (fieldsMagnitude 127 23 exponent significand)) := by
  have hfield : exponent < 2 ^ 8 := by omega
  rw [toRat?_value (by rw [exponent_ofFields hfield hs]; omega), negative_ofFields hfield hs,
    exponent_ofFields hfield hs, significand_ofFields hfield hs]

theorem value_ofFields_infinite (negative : Bool) :
    (ofFields negative 255 0).value = .infinite negative := by
  rw [value_of_exponent_eq (exponent_ofFields (by decide) (by decide)),
    if_pos (significand_ofFields (by decide) (by decide)),
    negative_ofFields (by decide) (by decide)]

/-- The bits below the sign of a pattern that is made of fields. -/
theorem low_ofFields (he : exponent < 2 ^ 8) (hs : significand < 2 ^ 23) :
    (ofFields negative exponent significand).low = exponent * 2 ^ 23 + significand := by
  rw [low, exponent_ofFields he hs, significand_ofFields he hs]

/-- A normal number is not below the least one, and below all that is too large. -/
theorem range_of_normal (hne : exponent ≠ 0) (he : exponent < 255) (hs : significand < 2 ^ 23) :
    2 ^ (-126 : ℤ) ≤ fieldsMagnitude 127 23 exponent significand ∧
      fieldsMagnitude 127 23 exponent significand < 2 ^ (128 : ℤ) := by
  obtain ⟨hge, hlt⟩ := fieldsMagnitude_bounds 127 hne hs
  refine ⟨le_trans ?_ hge, lt_of_lt_of_le hlt ?_⟩
  · exact zpow_le_zpow_right₀ one_le_two (by omega)
  · exact zpow_le_zpow_right₀ one_le_two (by omega)

end Binary32

namespace CompactFormat

variable {f : CompactFormat} {pattern exponent significand : ℕ}

/-! ### The leading one of a pattern -/

/-- **The exact magnitude of a pattern.** An exponent field of all ones is nothing special. -/
def magnitude (f : CompactFormat) (pattern : ℕ) : ℚ :=
  fieldsMagnitude f.bias f.significandBits (f.patternExponent pattern)
    (f.patternSignificand pattern)

/-- **Magnitudes are ordered like the bits below the sign.** -/
theorem magnitude_le_iff {pattern pattern' : ℕ} : f.magnitude pattern ≤ f.magnitude pattern' ↔
    pattern % 2 ^ (f.width.bits - 1) ≤ pattern' % 2 ^ (f.width.bits - 1) := by
  rw [← joined_fields, ← joined_fields]
  exact fieldsMagnitude_le_iff (f.patternSignificand_lt pattern) (f.patternSignificand_lt pattern')

/-- The magnitude of a pattern, by any fields that its bits below the sign are made of. -/
theorem magnitude_eq_of_mod (hlt : significand < 2 ^ f.significandBits)
    (h : pattern % 2 ^ (f.width.bits - 1) = exponent * 2 ^ f.significandBits + significand) :
    f.magnitude pattern = fieldsMagnitude f.bias f.significandBits exponent significand := by
  rw [← joined_fields] at h
  exact le_antisymm ((fieldsMagnitude_le_iff (f.patternSignificand_lt pattern) hlt).mpr h.le)
    ((fieldsMagnitude_le_iff hlt (f.patternSignificand_lt pattern)).mpr h.ge)

/-- **The loop ends where the significand is normalized**, unless the significand is zero. -/
theorem exists_shiftsUp (f : CompactFormat) (hne : significand ≠ 0)
    (hlt : significand < 2 ^ f.significandBits) :
    ∃ leading word, ShiftsUp f.significandBits (1 - f.bias) significand leading word ∧
      f.normalize 0 significand = (leading, word % 2 ^ f.significandBits) := by
  have hwidth := f.width_eq
  obtain ⟨-, hle, hless⟩ := shifted_bounds hne hlt
  refine ⟨_, _, shiftsUp_of_bounds (by omega) hle hless, ?_⟩
  rw [normalize, if_pos rfl, Nat.mod_eq_sub_mod hle, Nat.mod_eq_of_lt (by omega)]

/-- **The leading one of a pattern that is not zero**, with the bits behind it, has the magnitude of
the pattern. -/
theorem exists_normalize_eq (hne : ¬(exponent = 0 ∧ significand = 0))
    (hlt : significand < 2 ^ f.significandBits) :
    ∃ leading behind, f.normalize exponent significand = (leading, behind) ∧
      behind < 2 ^ f.significandBits ∧
      fieldsMagnitude f.bias f.significandBits exponent significand =
        (1 + behind / 2 ^ f.significandBits) * 2 ^ leading := by
  by_cases hexponent : exponent = 0
  · have hsignificand : significand ≠ 0 := fun hzero => hne ⟨hexponent, hzero⟩
    obtain ⟨-, hle, hless⟩ := shifted_bounds hsignificand hlt
    refine ⟨_, _, if_pos hexponent, by omega, ?_⟩
    rw [fieldsMagnitude, if_pos hexponent, Nat.cast_sub hle]
    generalize f.significandBits - significand.log2 = places
    push_cast
    simp only [zpow_sub₀ (two_ne_zero' ℚ), zpow_natCast, zpow_one]
    field_simp
    ring
  · refine ⟨_, _, if_neg hexponent, hlt, ?_⟩
    rw [fieldsMagnitude, if_neg hexponent]

theorem two_pow_23_eq_rat (f : CompactFormat) :
    (2 : ℚ) ^ 23 = 2 ^ f.significandBits * 2 ^ (23 - f.significandBits) := by
  exact_mod_cast f.two_pow_23_eq

/-- A leading one and the bits behind it, in the fields of the wider format. -/
theorem fieldsMagnitude_widened (f : CompactFormat) {leading : ℤ} (h : -126 ≤ leading)
    (behind : ℕ) :
    fieldsMagnitude 127 23 (leading + 127).toNat (behind * 2 ^ (23 - f.significandBits)) =
      (1 + behind / 2 ^ f.significandBits) * 2 ^ leading := by
  have hleading : (((leading + 127).toNat : ℕ) : ℤ) - (127 : ℕ) = leading := by omega
  rw [fieldsMagnitude, if_neg (by omega), hleading, f.two_pow_23_eq_rat]
  push_cast
  field_simp

/-! ### Decoding -/

/-- A pattern that is not zero is decoded by its leading one. -/
theorem decode_of_normalize (hzero : ¬f.IsZero pattern) {leading : ℤ} {behind : ℕ}
    (h : f.normalize (f.patternExponent pattern) (f.patternSignificand pattern) =
      (leading, behind)) :
    f.decode pattern =
      if 127 < leading then .ofFields (f.patternNegative pattern) 255 0
      else if leading < -126 then .ofFields (f.patternNegative pattern) 0 0
      else .ofFields (f.patternNegative pattern) (leading + 127).toNat
        (behind * 2 ^ (23 - f.significandBits)) := by
  have hzero' : ¬(f.patternExponent pattern = 0 ∧ f.patternSignificand pattern = 0) := hzero
  simp only [decode, h, if_neg hzero']

/-- **What decoding gives**, by the exact magnitude: a zero, an infinity, or a normal number of that
magnitude. -/
theorem decode_cases (f : CompactFormat) (pattern : ℕ) :
    (f.magnitude pattern < 2 ^ (-126 : ℤ) ∧
      f.decode pattern = .ofFields (f.patternNegative pattern) 0 0) ∨
    (2 ^ (128 : ℤ) ≤ f.magnitude pattern ∧
      f.decode pattern = .ofFields (f.patternNegative pattern) 255 0) ∨
    ∃ exponent significand, exponent ≠ 0 ∧ exponent < 255 ∧ significand < 2 ^ 23 ∧
      f.decode pattern = .ofFields (f.patternNegative pattern) exponent significand ∧
      fieldsMagnitude 127 23 exponent significand = f.magnitude pattern := by
  by_cases hzero : f.IsZero pattern
  · refine .inl ⟨?_, decode_of_isZero hzero⟩
    rw [magnitude, hzero.1, hzero.2, fieldsMagnitude, if_pos rfl, Nat.cast_zero, zero_mul]
    positivity
  obtain ⟨leading, behind, hnormalize, hbehind, hmagnitude⟩ :=
    exists_normalize_eq hzero (f.patternSignificand_lt pattern)
  obtain ⟨hge, hlt⟩ := leading_bounds leading hbehind
  have hdecode := decode_of_normalize hzero hnormalize
  rw [magnitude, hmagnitude]
  rcases lt_or_ge 127 leading with hhigh | hhigh
  · rw [if_pos hhigh] at hdecode
    refine .inr (.inl ⟨le_trans ?_ hge, hdecode⟩)
    exact zpow_le_zpow_right₀ one_le_two (by omega)
  rw [if_neg (by omega)] at hdecode
  rcases lt_or_ge leading (-126) with hlow | hlow
  · rw [if_pos hlow] at hdecode
    refine .inl ⟨lt_of_lt_of_le hlt ?_, hdecode⟩
    exact zpow_le_zpow_right₀ one_le_two (by omega)
  · rw [if_neg (by omega)] at hdecode
    exact .inr (.inr ⟨_, _, by omega, by omega, f.mul_lt_of_lt hbehind, hdecode,
      f.fieldsMagnitude_widened hlow behind⟩)

/-- **The sign bit is copied.** -/
theorem negative_decode (f : CompactFormat) (pattern : ℕ) :
    (f.decode pattern).negative = f.patternNegative pattern := by
  rcases f.decode_cases pattern with ⟨-, h⟩ | ⟨-, h⟩ | ⟨exponent, significand, -, he, hs, h, -⟩
  · rw [h, Binary32.negative_ofFields (by decide) (by decide)]
  · rw [h, Binary32.negative_ofFields (by decide) (by decide)]
  · rw [h, Binary32.negative_ofFields (by omega) hs]

/-- **No pattern is decoded to a NaN.** -/
theorem isNumber_decode (f : CompactFormat) (pattern : ℕ) : (f.decode pattern).IsNumber := by
  rcases f.decode_cases pattern with ⟨-, h⟩ | ⟨-, h⟩ | ⟨exponent, significand, -, he, hs, h, -⟩
  · rw [h]
    exact fun _ => Binary32.significand_ofFields (by decide) (by decide)
  · rw [h]
    exact fun _ => Binary32.significand_ofFields (by decide) (by decide)
  · rw [h, Binary32.IsNumber, Binary32.exponent_ofFields (by omega) hs]
    exact fun hexponent => absurd hexponent he.ne

/-- A magnitude below that of the least normal number is lost. -/
theorem decode_of_lt (h : f.magnitude pattern < 2 ^ (-126 : ℤ)) :
    f.decode pattern = .ofFields (f.patternNegative pattern) 0 0 := by
  rcases f.decode_cases pattern with ⟨-, hdecode⟩ | ⟨hhigh, -⟩ |
    ⟨exponent, significand, hne, he, hs, -, hmagnitude⟩
  · exact hdecode
  · have hends : (2 : ℚ) ^ (-126 : ℤ) < 2 ^ (128 : ℤ) :=
      zpow_lt_zpow_right₀ one_lt_two (by decide)
    linarith
  · have hrange := Binary32.range_of_normal hne he hs
    linarith

theorem toRat?_decode_of_lt (h : f.magnitude pattern < 2 ^ (-126 : ℤ)) :
    (f.decode pattern).value.toRat? = some 0 := by
  rw [decode_of_lt h, Binary32.toRat?_value_ofFields (by decide) (by decide), fieldsMagnitude,
    if_pos rfl, Nat.cast_zero, zero_mul, FloatValue.signed_zero]

/-- **A magnitude in the range of normal numbers is kept.** -/
theorem exists_decode_eq_of_range (hge : 2 ^ (-126 : ℤ) ≤ f.magnitude pattern)
    (hlt : f.magnitude pattern < 2 ^ (128 : ℤ)) :
    ∃ exponent significand, exponent < 255 ∧ significand < 2 ^ 23 ∧
      f.decode pattern = .ofFields (f.patternNegative pattern) exponent significand ∧
      fieldsMagnitude 127 23 exponent significand = f.magnitude pattern := by
  rcases f.decode_cases pattern with ⟨hlow, -⟩ | ⟨hhigh, -⟩ |
    ⟨exponent, significand, -, he, hs, hdecode, hmagnitude⟩
  · exact absurd hlow hge.not_gt
  · exact absurd hhigh hlt.not_ge
  · exact ⟨exponent, significand, he, hs, hdecode, hmagnitude⟩

theorem toRat?_decode_of_range (hge : 2 ^ (-126 : ℤ) ≤ f.magnitude pattern)
    (hlt : f.magnitude pattern < 2 ^ (128 : ℤ)) : (f.decode pattern).value.toRat? =
      some (FloatValue.signed (f.patternNegative pattern) (f.magnitude pattern)) := by
  obtain ⟨exponent, significand, he, hs, hdecode, hmagnitude⟩ := exists_decode_eq_of_range hge hlt
  rw [hdecode, Binary32.toRat?_value_ofFields he hs, hmagnitude]

/-- A magnitude above all finite numbers becomes an infinity. -/
theorem decode_of_ge (h : 2 ^ (128 : ℤ) ≤ f.magnitude pattern) :
    f.decode pattern = .ofFields (f.patternNegative pattern) 255 0 := by
  rcases f.decode_cases pattern with ⟨hlow, -⟩ | ⟨-, hdecode⟩ |
    ⟨exponent, significand, hne, he, hs, -, hmagnitude⟩
  · have hends : (2 : ℚ) ^ (-126 : ℤ) < 2 ^ (128 : ℤ) :=
      zpow_lt_zpow_right₀ one_lt_two (by decide)
    linarith
  · exact hdecode
  · have hrange := Binary32.range_of_normal hne he hs
    linarith

theorem value_decode_of_ge (h : 2 ^ (128 : ℤ) ≤ f.magnitude pattern) :
    (f.decode pattern).value = .infinite (f.patternNegative pattern) := by
  rw [decode_of_ge h, Binary32.value_ofFields_infinite]

/-- The fields of a pattern are in the bits of its format. -/
theorem decode_mod (f : CompactFormat) (pattern : ℕ) :
    f.decode (pattern % 2 ^ f.width.bits) = f.decode pattern := by
  obtain ⟨hwidth, -, -⟩ := f.width_eq
  have hsplit : 2 ^ f.width.bits = 2 ^ f.significandBits * 2 ^ (f.exponentBits + 1) := by
    rw [hwidth, ← Nat.pow_add]
    congr 1
    omega
  have hnegative : f.patternNegative (pattern % 2 ^ f.width.bits) = f.patternNegative pattern := by
    rw [patternNegative, Nat.testBit_mod_two_pow, decide_eq_true (by omega), Bool.true_and]
    rfl
  have hexponent : f.patternExponent (pattern % 2 ^ f.width.bits) = f.patternExponent pattern := by
    rw [patternExponent, hsplit, Nat.mod_mul_right_div_self,
      Nat.mod_mod_of_dvd _ (Nat.pow_dvd_pow 2 (Nat.le_succ _))]
    rfl
  have hsignificand :
      f.patternSignificand (pattern % 2 ^ f.width.bits) = f.patternSignificand pattern := by
    rw [patternSignificand, hsplit, Nat.mod_mul_right_mod]
    rfl
  simp only [decode, hnegative, hexponent, hsignificand]

/-- **What a compact pattern is decoded to.** The shifting of a significand without an implied one
comes to its end, and only the bits of the format count. The sign is that of the pattern, and the
magnitude is that of the pattern where it is in the range of normal numbers; above it there are
infinities, and below it zeros. -/
theorem decode_eq_magnitude (f : CompactFormat) (pattern : ℕ) :
    (f.patternExponent pattern = 0 → f.patternSignificand pattern ≠ 0 →
      ∃ leading word, ShiftsUp f.significandBits (1 - f.bias) (f.patternSignificand pattern)
          leading word ∧
        f.normalize (f.patternExponent pattern) (f.patternSignificand pattern) =
          (leading, word % 2 ^ f.significandBits)) ∧
      f.decode pattern = f.decode (pattern % 2 ^ f.width.bits) ∧
      (f.decode pattern).negative = f.patternNegative pattern ∧
      (2 ^ (-126 : ℤ) ≤ f.magnitude pattern → f.magnitude pattern < 2 ^ (128 : ℤ) →
        (f.decode pattern).value.toRat? =
          some (FloatValue.signed (f.patternNegative pattern) (f.magnitude pattern))) ∧
      (2 ^ (128 : ℤ) ≤ f.magnitude pattern →
        (f.decode pattern).value = .infinite (f.patternNegative pattern)) ∧
      (f.magnitude pattern < 2 ^ (-126 : ℤ) → (f.decode pattern).value.toRat? = some 0) := by
  refine ⟨fun hzero hne => ?_, (f.decode_mod pattern).symm, f.negative_decode pattern,
    toRat?_decode_of_range, value_decode_of_ge, toRat?_decode_of_lt⟩
  rw [hzero]
  exact f.exists_shiftsUp hne (f.patternSignificand_lt pattern)

/-- The negative number of least magnitude with ten significand bits is shifted up by ten places. -/
theorem decode_eq_magnitude_least :
    ∃ f : CompactFormat, f.width = .bits16 ∧ f.significandBits = 10 ∧
      f.patternExponent 0x8001 = 0 ∧ f.patternSignificand 0x8001 ≠ 0 ∧
      2 ^ (-126 : ℤ) ≤ f.magnitude 0x8001 ∧ f.magnitude 0x8001 < 2 ^ (128 : ℤ) ∧
      (∃ leading word, ShiftsUp 10 (1 - 15) 1 leading word) ∧
      (f.decode 0x8001).value.toRat? = some (-2 ^ (-24 : ℤ)) := by
  obtain ⟨f, hf⟩ : ∃ f : CompactFormat, f = ⟨.bits16, 10, by decide, by decide⟩ := ⟨_, rfl⟩
  have hexponent : f.patternExponent 0x8001 = 0 := by rw [hf]; decide
  have hsignificand : f.patternSignificand 0x8001 = 1 := by rw [hf]; decide
  have hbias : f.bias = 15 := by rw [hf]; decide
  have hbits : f.significandBits = 10 := by rw [hf]
  have hmagnitude : f.magnitude 0x8001 = 2 ^ (-24 : ℤ) := by
    rw [magnitude, fieldsMagnitude, if_pos hexponent, hsignificand, hbias, hbits]
    norm_num
  have hge : 2 ^ (-126 : ℤ) ≤ f.magnitude 0x8001 := by rw [hmagnitude]; norm_num
  have hlt : f.magnitude 0x8001 < 2 ^ (128 : ℤ) := by rw [hmagnitude]; norm_num
  obtain ⟨hloop, -, -, hrange, -, -⟩ := f.decode_eq_magnitude 0x8001
  have hnegative : f.patternNegative 0x8001 = true := by rw [hf]; decide
  obtain ⟨leading, word, hshifts, -⟩ := hloop hexponent (by rw [hsignificand]; decide)
  refine ⟨f, by rw [hf], hbits, hexponent, by rw [hsignificand]; decide, hge, hlt,
    ⟨leading, word, ?_⟩, ?_⟩
  · rwa [hbits, hbias, hsignificand] at hshifts
  · rw [hrange hge hlt, hnegative, hmagnitude]
    rfl

end CompactFormat

end WireCodec
