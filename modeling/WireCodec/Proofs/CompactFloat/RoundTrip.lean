import WireCodec.CompactFloat

/-!
# Compact patterns survive decoding and encoding

A compact pattern that is decoded and encoded again is the same pattern, with two restrictions. Its
exponent field may not be all ones, as no number is encoded so, and it has to be decoded to a normal
number, unless it is a zero itself. Under these `WireCodec.CompactFormat.encode_decode_pattern` says
what is left of the pattern: all of it, unless it is *vanishing*.

A number with an implied one keeps its fields, up to the bias of the exponent and to zeros behind
the significand (`WireCodec.CompactFormat.encodeMagnitude_of_implied`). A number without it is
decoded by shifting its significand up until the leading one falls out at the top; encoding puts
that one back and shifts down by as many places
(`WireCodec.CompactFormat.encodeMagnitude_of_shifted`). From
`WireCodec.CompactFormat.vanishingShift` places on the significand is lost on the way down, and that
is the case for the vanishing patterns. Only formats with that many significand bits have any
(`WireCodec.CompactFormat.not_isVanishing_of_lt`), so that no pattern of two bytes is lost.
-/

namespace WireCodec

/-! ### The fields of a 32-bit pattern -/

namespace Binary32

/-- **The pattern is a normal number**: its exponent field is neither zero nor all ones. -/
def IsNormal (x : Binary32) : Prop :=
  x.exponent ≠ 0 ∧ x.exponent ≠ 255

variable {negative : Bool} {exponent significand : Nat}

theorem toNat_bits_ofFields (he : exponent < 2 ^ 8) (hs : significand < 2 ^ 23) :
    (ofFields negative exponent significand).bits.toNat =
      negative.toNat * 2 ^ 31 + exponent * 2 ^ 23 + significand := by
  have hn := Bool.toNat_le negative
  rw [ofFields, UInt32.toNat_ofNat']
  exact Nat.mod_eq_of_lt (by omega)

theorem negative_ofFields (he : exponent < 2 ^ 8) (hs : significand < 2 ^ 23) :
    (ofFields negative exponent significand).negative = negative := by
  rw [Binary32.negative, toNat_bits_ofFields he hs, Nat.testBit_eq_decide_div_mod_eq]
  cases negative <;> simp <;> omega

theorem exponent_ofFields (he : exponent < 2 ^ 8) (hs : significand < 2 ^ 23) :
    (ofFields negative exponent significand).exponent = exponent := by
  have hn := Bool.toNat_le negative
  rw [Binary32.exponent, toNat_bits_ofFields he hs]
  omega

theorem significand_ofFields (he : exponent < 2 ^ 8) (hs : significand < 2 ^ 23) :
    (ofFields negative exponent significand).significand = significand := by
  have hn := Bool.toNat_le negative
  rw [Binary32.significand, toNat_bits_ofFields he hs]
  omega

end Binary32

namespace CompactFormat

variable {f : CompactFormat} {pattern exponent significand places n : Nat} {negative : Bool}

/-! ### The bits of a format -/

theorem width_eq (f : CompactFormat) :
    f.width.bits = f.exponentBits + f.significandBits + 1 ∧ 3 ≤ f.exponentBits ∧
      f.significandBits ≤ 20 := by
  obtain ⟨width, significandBits, hmin, hmax⟩ := f
  cases width <;>
    simp only [CompactWidth.minSignificandBits, CompactWidth.maxSignificandBits] at hmin hmax <;>
    simp only [exponentBits, CompactWidth.bits] <;> omega

/-- An exponent field of all ones is the one above twice the bias. -/
theorem two_mul_bias (f : CompactFormat) : 2 * f.bias + 2 = 2 ^ f.exponentBits := by
  obtain ⟨k, hk⟩ : ∃ k, f.exponentBits = k + 1 := ⟨f.exponentBits - 1, by have := f.width_eq; omega⟩
  have hpos := Nat.two_pow_pos k
  rw [bias, hk, Nat.add_sub_cancel, Nat.pow_succ]
  omega

/-- The exponent field and the significand field are all bits below the sign. -/
theorem joined_fields (f : CompactFormat) (pattern : Nat) :
    f.patternExponent pattern * 2 ^ f.significandBits + f.patternSignificand pattern =
      pattern % 2 ^ (f.width.bits - 1) := by
  rw [f.width_eq.1, Nat.add_sub_cancel, Nat.add_comm f.exponentBits, Nat.pow_add, Nat.mod_mul,
    Nat.mul_comm, Nat.add_comm]
  rfl

/-- **A pattern is made of its fields.** -/
theorem pattern_eq (h : pattern < 2 ^ f.width.bits) :
    (f.patternNegative pattern).toNat * 2 ^ (f.width.bits - 1) +
      (f.patternExponent pattern * 2 ^ f.significandBits + f.patternSignificand pattern) =
        pattern := by
  have hwidth : 2 ^ f.width.bits = 2 ^ (f.width.bits - 1) * 2 := by
    rw [f.width_eq.1, Nat.add_sub_cancel, Nat.pow_succ]
  have hhigh : (f.patternNegative pattern).toNat = pattern / 2 ^ (f.width.bits - 1) := by
    rw [patternNegative, Nat.toNat_testBit, Nat.mod_eq_of_lt]
    exact Nat.div_lt_of_lt_mul (by omega)
  rw [joined_fields, hhigh, Nat.mul_comm]
  exact Nat.div_add_mod pattern _

/-! ### Shifting up and down again -/

/-- What has been shifted up is shifted down without a remainder. -/
theorem roundShift_mul (h : 0 < places) : roundShift (n * 2 ^ places) places = n := by
  have hlt : 2 ^ (places - 1) < 2 ^ places := Nat.pow_lt_pow_right (by omega) (by omega)
  rw [roundShift, Nat.add_comm, Nat.add_mul_div_right _ _ (Nat.two_pow_pos places),
    Nat.div_eq_of_lt hlt, Nat.zero_add]

theorem roundSignificand_mul (h : significand < 2 ^ f.significandBits) :
    f.roundSignificand (significand * 2 ^ (23 - f.significandBits)) = significand := by
  have hwidth := f.width_eq
  rw [roundSignificand, roundShift_mul (by omega), maxSignificand]
  omega

/-- The leading one of a significand without an implied one comes to the place of the implied
one. -/
theorem shifted_bounds (hne : significand ≠ 0) (h : significand < 2 ^ f.significandBits) :
    significand.log2 < f.significandBits ∧
      2 ^ f.significandBits ≤ significand * 2 ^ (f.significandBits - significand.log2) ∧
      significand * 2 ^ (f.significandBits - significand.log2) < 2 * 2 ^ f.significandBits := by
  have hlog : significand.log2 < f.significandBits := (Nat.log2_lt hne).mpr h
  have hsplit : 2 ^ f.significandBits =
      2 ^ significand.log2 * 2 ^ (f.significandBits - significand.log2) := by
    rw [← Nat.pow_add, Nat.add_sub_cancel' (Nat.le_of_lt hlog)]
  refine ⟨hlog, ?_, ?_⟩
  · rw [hsplit]
    exact Nat.mul_le_mul_right _ (Nat.log2_self_le hne)
  · have hlt : significand < 2 * 2 ^ significand.log2 := by
      have := Nat.lt_log2_self (n := significand)
      rwa [Nat.pow_succ, Nat.mul_comm] at this
    rw [hsplit, ← Nat.mul_assoc]
    exact Nat.mul_lt_mul_of_pos_right hlt (Nat.two_pow_pos _)

/-- The 23 significand bits are those of the format and the rest. -/
theorem two_pow_23_eq (f : CompactFormat) :
    2 ^ 23 = 2 ^ f.significandBits * 2 ^ (23 - f.significandBits) := by
  have hwidth := f.width_eq
  rw [← Nat.pow_add, Nat.add_sub_cancel' (by omega)]

/-- A significand behind the leading one fits into the field of the wider format. -/
theorem mul_lt_of_lt (f : CompactFormat) (h : n < 2 ^ f.significandBits) :
    n * 2 ^ (23 - f.significandBits) < 2 ^ 23 := by
  rw [f.two_pow_23_eq]
  exact Nat.mul_lt_mul_of_pos_right h (Nat.two_pow_pos _)

/-! ### Encoding what has been decoded -/

/-- **With an implied one** the fields are kept. -/
theorem encodeMagnitude_of_implied {field : Int} (hfield : field = exponent + 127 - f.bias)
    (hnonneg : 0 ≤ field) (hpos : exponent ≠ 0) (hle : exponent ≤ 2 * f.bias)
    (h : significand < 2 ^ f.significandBits) :
    f.encodeMagnitude field.toNat (significand * 2 ^ (23 - f.significandBits)) =
      exponent * 2 ^ f.significandBits + significand := by
  have hback : (field.toNat : Int) - 127 + f.bias = exponent := by omega
  simp only [encodeMagnitude, roundSignificand_mul h, hback]
  rw [if_neg (by omega), if_neg (by omega), Int.toNat_natCast]

/-- **Without an implied one** the significand comes down again, or vanishes. -/
theorem encodeMagnitude_of_shifted {field : Int} (hne : significand ≠ 0)
    (h : significand < 2 ^ f.significandBits)
    (hfield : field = 128 - f.bias - (f.significandBits - significand.log2 : Nat))
    (hnonneg : 0 ≤ field) :
    f.encodeMagnitude field.toNat
        ((significand * 2 ^ (f.significandBits - significand.log2) - 2 ^ f.significandBits) *
          2 ^ (23 - f.significandBits)) =
      if vanishingShift ≤ f.significandBits - significand.log2 then 0 else significand := by
  obtain ⟨hlog, hle, hlt⟩ := shifted_bounds hne h
  have hplaces : (1 - ((field.toNat : Int) - 127 + f.bias)).toNat =
      f.significandBits - significand.log2 := by omega
  simp only [encodeMagnitude, hplaces]
  rw [if_pos (by omega), roundSignificand_mul (by omega), Nat.sub_add_cancel hle,
    roundShift_mul (by omega)]

theorem encode_ofFields (he : exponent < 2 ^ 8) (hs : significand < 2 ^ 23) :
    f.encode (.ofFields negative exponent significand) =
      negative.toNat * 2 ^ (f.width.bits - 1) +
        if exponent = 0 ∧ significand = 0 then 0 else f.encodeMagnitude exponent significand := by
  simp only [encode, Binary32.negative_ofFields he hs, Binary32.exponent_ofFields he hs,
    Binary32.significand_ofFields he hs]
  split
  · rw [Nat.add_zero]
  · rfl

/-! ### Decoding to a zero or to a normal number -/

/-- **All bits of the pattern but the sign are zero.** -/
def IsZero (f : CompactFormat) (pattern : Nat) : Prop :=
  f.patternExponent pattern = 0 ∧ f.patternSignificand pattern = 0

theorem decode_of_isZero (h : f.IsZero pattern) :
    f.decode pattern = .ofFields (f.patternNegative pattern) 0 0 := by
  simp only [decode]
  exact if_pos h

/-- **A pattern that is decoded to a normal number** keeps its sign, and its exponent and
significand are those of its leading one. -/
theorem decode_of_isNormal (h : (f.decode pattern).IsNormal) {leading : Int} {behind : Nat}
    (hnormalize : f.normalize (f.patternExponent pattern) (f.patternSignificand pattern) =
      (leading, behind)) :
    ¬f.IsZero pattern ∧ -126 ≤ leading ∧ leading ≤ 127 ∧
      f.decode pattern = .ofFields (f.patternNegative pattern) (leading + 127).toNat
        (behind * 2 ^ (23 - f.significandBits)) := by
  have hzero : ∀ negative, ¬(Binary32.ofFields negative 0 0).IsNormal := fun negative hnormal =>
    hnormal.1 (Binary32.exponent_ofFields (by decide) (by decide))
  have hinfinite : ∀ negative, ¬(Binary32.ofFields negative 255 0).IsNormal :=
    fun negative hnormal => hnormal.2 (Binary32.exponent_ofFields (by decide) (by decide))
  by_cases hmagnitude : f.IsZero pattern
  · rw [decode_of_isZero hmagnitude] at h
    exact absurd h (hzero _)
  · have hmagnitude' : ¬(f.patternExponent pattern = 0 ∧ f.patternSignificand pattern = 0) :=
      hmagnitude
    simp only [decode, hnormalize, if_neg hmagnitude'] at h ⊢
    split at h
    · exact absurd h (hinfinite _)
    · rename_i hhigh
      split at h
      · exact absurd h (hzero _)
      · rename_i hlow
        rw [if_neg hhigh, if_neg hlow]
        exact ⟨hmagnitude, by omega, by omega, rfl⟩

/-! ### The round trip -/

/-- **The pattern vanishes**: it has no implied one, and the leading one of its significand is too
far below the place of the implied one. -/
def IsVanishing (f : CompactFormat) (pattern : Nat) : Prop :=
  f.patternExponent pattern = 0 ∧ f.patternSignificand pattern ≠ 0 ∧
    (f.patternSignificand pattern).log2 + vanishingShift ≤ f.significandBits

instance (f : CompactFormat) (pattern : Nat) : Decidable (f.IsVanishing pattern) :=
  inferInstanceAs (Decidable (_ ∧ _ ∧ _))

/-- In a format with few significand bits no pattern vanishes. -/
theorem not_isVanishing_of_lt (h : f.significandBits < vanishingShift) : ¬f.IsVanishing pattern :=
  fun hvanishing => absurd hvanishing.2.2 (by omega)

/-- There is no room for many significand bits in two bytes. -/
theorem significandBits_lt_of_bits16 (h : f.width = .bits16) :
    f.significandBits < vanishingShift := by
  have hle := f.le_max
  rw [h] at hle
  exact Nat.lt_of_le_of_lt hle (by decide)

theorem patternSignificand_lt (f : CompactFormat) (pattern : Nat) :
    f.patternSignificand pattern < 2 ^ f.significandBits :=
  Nat.mod_lt _ (Nat.two_pow_pos _)

/-- A normal number with an implied one has the same magnitude again. -/
theorem encode_decode_of_implied (hnormal : (f.decode pattern).IsNormal)
    (hpos : f.patternExponent pattern ≠ 0)
    (hexponent : f.patternExponent pattern ≠ 2 ^ f.exponentBits - 1) :
    f.encode (f.decode pattern) =
      (f.patternNegative pattern).toNat * 2 ^ (f.width.bits - 1) +
        (f.patternExponent pattern * 2 ^ f.significandBits + f.patternSignificand pattern) := by
  have hbias := f.two_mul_bias
  have hsignificand := f.patternSignificand_lt pattern
  have hlt : f.patternExponent pattern < 2 ^ f.exponentBits := Nat.mod_lt _ (Nat.two_pow_pos _)
  obtain ⟨-, hlow, hhigh, heq⟩ := decode_of_isNormal hnormal (if_neg hpos)
  rw [heq, encode_ofFields (by omega) (f.mul_lt_of_lt hsignificand), if_neg (by omega),
    encodeMagnitude_of_implied (by omega) (by omega) hpos (by omega) hsignificand]

/-- A normal number without an implied one has the same magnitude again, or none. -/
theorem encode_decode_of_shifted (hnormal : (f.decode pattern).IsNormal)
    (hzero : f.patternExponent pattern = 0) :
    f.encode (f.decode pattern) =
      (f.patternNegative pattern).toNat * 2 ^ (f.width.bits - 1) +
        if f.IsVanishing pattern then 0 else f.patternSignificand pattern := by
  have hsignificand := f.patternSignificand_lt pattern
  obtain ⟨hmagnitude, hlow, hhigh, heq⟩ := decode_of_isNormal hnormal (if_pos hzero)
  have hne : f.patternSignificand pattern ≠ 0 := fun hnone => hmagnitude ⟨hzero, hnone⟩
  obtain ⟨hlog, hle, hlt⟩ := shifted_bounds hne hsignificand
  have hvanishing : f.IsVanishing pattern ↔
      vanishingShift ≤ f.significandBits - (f.patternSignificand pattern).log2 := by
    constructor
    · rintro ⟨-, -, hshift⟩
      omega
    · intro hshift
      exact ⟨hzero, hne, by omega⟩
  rw [heq, encode_ofFields (by omega) (f.mul_lt_of_lt (by omega)), if_neg (by omega),
    encodeMagnitude_of_shifted hne hsignificand (by omega) (by omega)]
  simp only [hvanishing]

/-- A pattern that is decoded and encoded again keeps its sign, and the rest unless it vanishes. -/
theorem encode_decode_eq (hpattern : pattern < 2 ^ f.width.bits)
    (hexponent : f.patternExponent pattern ≠ 2 ^ f.exponentBits - 1)
    (hdecode : f.IsZero pattern ∨ (f.decode pattern).IsNormal) :
    f.encode (f.decode pattern) =
      if f.IsVanishing pattern then (f.patternNegative pattern).toNat * 2 ^ (f.width.bits - 1)
      else pattern := by
  have hfields := pattern_eq hpattern
  by_cases hzero : f.patternExponent pattern = 0
  · -- Without an implied one the magnitude is the significand, which may be zero from the start.
    have hkeep : f.encode (f.decode pattern) =
        (f.patternNegative pattern).toNat * 2 ^ (f.width.bits - 1) +
          if f.IsVanishing pattern then 0 else f.patternSignificand pattern := by
      rcases hdecode with hmagnitude | hnormal
      · rw [decode_of_isZero hmagnitude, encode_ofFields (by decide) (by decide), if_pos ⟨rfl, rfl⟩,
          hmagnitude.2, ite_self]
      · exact encode_decode_of_shifted hnormal hzero
    rw [hzero, Nat.zero_mul, Nat.zero_add] at hfields
    rw [hkeep]
    split
    · rw [Nat.add_zero]
    · exact hfields
  · have hnormal : (f.decode pattern).IsNormal :=
      hdecode.resolve_left fun hmagnitude => hzero hmagnitude.1
    have hkeep : ¬f.IsVanishing pattern := fun hvanishing => hzero hvanishing.1
    rw [encode_decode_of_implied hnormal hzero hexponent, if_neg hkeep]
    exact hfields

/-- **A pattern that is decoded and encoded again** is the same pattern, unless it vanishes: then
only its sign is left. No pattern of two bytes vanishes, and none of a format with few significand
bits. -/
theorem encode_decode_pattern (hpattern : pattern < 2 ^ f.width.bits)
    (hexponent : f.patternExponent pattern ≠ 2 ^ f.exponentBits - 1)
    (hdecode : f.IsZero pattern ∨ (f.decode pattern).IsNormal) :
    (f.encode (f.decode pattern) =
      if f.IsVanishing pattern then (f.patternNegative pattern).toNat * 2 ^ (f.width.bits - 1)
      else pattern) ∧
      (f.width = .bits16 ∨ f.significandBits < vanishingShift →
        f.encode (f.decode pattern) = pattern) := by
  have hkeep := encode_decode_eq hpattern hexponent hdecode
  refine ⟨hkeep, fun hfew => ?_⟩
  have hlt : f.significandBits < vanishingShift := hfew.elim significandBits_lt_of_bits16 id
  rw [hkeep, if_neg (not_isVanishing_of_lt hlt)]

/-- The smallest negative pattern that survives in the format with the most significand bits. -/
theorem encode_decode_least :
    ∃ f : CompactFormat, f.width = .bits24 ∧ f.significandBits = 20 ∧
      2 ^ 23 + 2 ^ 5 < 2 ^ f.width.bits ∧
      f.patternExponent (2 ^ 23 + 2 ^ 5) ≠ 2 ^ f.exponentBits - 1 ∧
      (f.decode (2 ^ 23 + 2 ^ 5)).IsNormal ∧
      f.encode (f.decode (2 ^ 23 + 2 ^ 5)) = 2 ^ 23 + 2 ^ 5 := by
  refine ⟨⟨.bits24, 20, by decide, by decide⟩, rfl, rfl, by decide, by decide, ?_, ?_⟩
  · exact ⟨by decide +kernel, by decide +kernel⟩
  · obtain ⟨hkeep, -⟩ := encode_decode_pattern (f := ⟨.bits24, 20, by decide, by decide⟩)
      (show 2 ^ 23 + 2 ^ 5 < 2 ^ 24 by decide) (by decide)
      (.inr ⟨by decide +kernel, by decide +kernel⟩)
    rw [hkeep]
    decide +kernel

/-- One bit further down the pattern vanishes. -/
example : CompactFormat.encode ⟨.bits24, 20, by decide, by decide⟩
    (CompactFormat.decode ⟨.bits24, 20, by decide, by decide⟩ (2 ^ 23 + 2 ^ 4)) = 2 ^ 23 := by
  decide +kernel

end CompactFormat

end WireCodec
