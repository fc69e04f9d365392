import WireCodec.Proofs.Ieee.Rounding

/-!
# Operations that round to the nearest number

`WireCodec.StandsFor` says that a floating point number is a zero or a normal number, and which
rational number it is. Each operation gives the exact result of these numbers, rounded by
`WireCodec.nearest`, as long as that is zero or in the range of the normal numbers:

| operation | result |
| --- | --- |
| `x + y`, `x - y`, `x * y`, `x / y` | the nearest number (`add`, `sub`, `mul`, `div`) |
| `-x` | exact (`neg`) |
| `x ≤ y`, `x < y` | as for rational numbers (`le_iff`, `lt_iff`) |
| a word as a floating point number | the nearest number (`WireCodec.standsFor_toFloat`) |
| a floating point number as a word | the integer part (`toNat_toUInt64`) |

All of these are proved for unpacked numbers first, where an operation is a function by cases, and
then go over to packed ones because a regular number is unpacked as it was packed
(`WireCodec.IsRegular.unpack_pack`).
-/

namespace WireCodec

open Float.Model Float.Model.UnpackedFloat

variable {p q : ℚ}

/-! ### Packed numbers -/

/-- The implied bit. -/
theorem toNat_one_append {width : ℕ} (x : BitVec width) :
    (1#1 ++ x).toNat = 2 ^ width + x.toNat := by
  rw [BitVec.toNat_append, ← Nat.shiftLeft_add_eq_or_of_lt x.isLt, Nat.shiftLeft_eq]
  simp

section Packing

variable (s : Sign) {m field : ℕ} {e : ℤ} (hpos : 0 < m) (hlow : 2 ^ 52 ≤ m) (hhigh : m < 2 ^ 53)
  (hfield : e + 1075 = field) (hmin : 0 < field) (hmax : field < 2047)
include hlow hhigh hfield hmax

/-- A normal number is packed with its exponent counted from the least one. -/
theorem pack_of_normal : UnpackedFloat.pack .binary64 (.finite s m e hpos) =
    packComponents .binary64 s (BitVec.ofNat 11 field) (BitVec.ofNat 52 m) := by
  have hbias : (Format.binary64.exponentBias : ℤ) = 1023 := rfl
  have hbiased : (e + (Format.binary64.exponentBias : ℕ) +
      (Format.binary64.mantissaBitsWithoutImplicit : ℕ)).toNat = field := by
    rw [hbias]
    push_cast
    omega
  have hlog : m.log2 + 1 = Format.binary64.mantissaBits := by
    rw [(Nat.log2_eq_iff hpos.ne').mpr ⟨hlow, hhigh⟩]
    rfl
  rw [UnpackedFloat.pack]
  simp only [hbiased]
  rw [if_neg (by omega), if_pos hlog]

include hmin

/-- An exponent field that is neither zero nor all ones is that of a normal number. -/
theorem unpack_packComponents : UnpackedFloat.unpack .binary64
    (packComponents .binary64 s (BitVec.ofNat 11 field) (BitVec.ofNat 52 m)) =
      .finite s m e hpos := by
  have hbias : (Format.binary64.exponentBias : ℤ) = 1023 := rfl
  have hexponent : (BitVec.ofNat 11 field).toNat = field := by
    rw [BitVec.toNat_ofNat, Nat.mod_eq_of_lt (by omega)]
  have hones : BitVec.ofNat 11 field ≠ -1#11 := fun heq => by
    have hnat : (BitVec.ofNat 11 field).toNat = 2047 := congrArg BitVec.toNat heq
    omega
  have hzero : BitVec.ofNat 11 field ≠ 0#11 := fun heq => by
    have hnat : (BitVec.ofNat 11 field).toNat = 0 := congrArg BitVec.toNat heq
    omega
  have hmantissa : (1#1 ++ BitVec.ofNat 52 m).toNat = m := by
    rw [toNat_one_append, BitVec.toNat_ofNat]
    omega
  rw [UnpackedFloat.unpack]
  simp only [unpackMantissa_packComponents, unpackExponent_packComponents,
    unpackSign_packComponents, Sign.ofBitVec_toBitVec]
  rw [if_neg hones, if_neg hzero]
  simp only [hmantissa, hexponent, hbias]
  congr 1
  push_cast
  omega

end Packing

/-! ### Operations on unpacked numbers -/

namespace IsRegular

variable {a b : UnpackedFloat}

/-- A normal number is its own nearest number. -/
theorem nearest_eq (h : IsRegular a q) : nearest q = q := by
  cases h with
  | zero s => exact nearest_zero
  | normal s hpos hlow hhigh hmin hmax => rw [nearest_applySign, nearest_of_normal hlow hhigh]

/-- **What is packed is unpacked again.** -/
theorem unpack_pack (h : IsRegular a q) :
    UnpackedFloat.unpack .binary64 (UnpackedFloat.pack .binary64 a) = a := by
  cases h with
  | zero s => cases s <;> rfl
  | @normal s m e hpos hlow hhigh hmin hmax =>
    obtain ⟨field, hfield⟩ : ∃ field : ℕ, e + 1075 = field := ⟨(e + 1075).toNat, by omega⟩
    rw [pack_of_normal s hpos hlow hhigh hfield (by omega)]
    exact unpack_packComponents s hpos hlow hhigh hfield (by omega) (by omega)

/-! #### Sums -/

theorem neg (h : IsRegular a q) : IsRegular a.neg (-q) := by
  cases h with
  | zero s =>
    rw [neg_zero]
    exact .zero (-s)
  | normal s hpos hlow hhigh hmin hmax =>
    rw [← applySign_neg]
    exact .normal (-s) hpos hlow hhigh hmin hmax

/-- A mantissa in a smaller unit. -/
theorem apply_decreaseExponent (s : Sign) (m : ℕ) {e target : ℤ} (h : target ≤ e) :
    ((s.apply (decreaseExponent m e target).1 : ℤ) : ℚ) * 2 ^ target =
      applySign s (m * 2 ^ e) := by
  have htarget : e - ((e - target).toNat : ℤ) = target := by omega
  rw [cast_apply, applySign_mul, mul_zpow_eq_shift m (e - target).toNat, htarget]
  rw [decreaseExponent, Nat.shiftLeft_eq]

/-- **Addition.** -/
theorem add (ha : IsRegular a p) (hb : IsRegular b q) (h : InRange (p + q)) :
    IsRegular (UnpackedFloat.add .binary64 a b) (nearest (p + q)) := by
  cases ha with
  | zero s =>
    rw [zero_add, hb.nearest_eq]
    cases hb with
    | zero s' => cases s <;> cases s' <;> exact .zero _
    | normal s' hpos hlow hhigh hmin hmax => exact .normal s' hpos hlow hhigh hmin hmax
  | @normal s m e hpos hlow hhigh hmin hmax =>
    cases hb with
    | zero s' =>
      rw [add_zero, nearest_applySign, nearest_of_normal hlow hhigh]
      exact .normal s hpos hlow hhigh hmin hmax
    | @normal s' m' e' hpos' hlow' hhigh' hmin' hmax' =>
      have hsum : applySign s (m * 2 ^ e) + applySign s' (m' * 2 ^ e') =
          ((s.apply (decreaseExponent m e (min e e')).1 +
            s'.apply (decreaseExponent m' e' (min e e')).1 : ℤ) : ℚ) * 2 ^ min e e' := by
        rw [Int.cast_add, add_mul, apply_decreaseExponent s m (min_le_left e e'),
          apply_decreaseExponent s' m' (min_le_right e e')]
      rw [hsum] at h ⊢
      exact isRegular_normalize h .positive

theorem sub_eq_add (ha : IsRegular a p) (hb : IsRegular b q) :
    UnpackedFloat.sub .binary64 a b = UnpackedFloat.add .binary64 a b.neg := by
  cases ha with
  | zero s =>
    cases hb with
    | zero s' => cases s <;> cases s' <;> rfl
    | normal s' => rfl
  | normal s =>
    cases hb with
    | zero s' => rfl
    | normal s' =>
      have hneg : ∀ z : ℤ, (-s').apply z = -s'.apply z := by
        intro z
        cases s'
        · exact (neg_neg z).symm
        · rfl
      simp only [UnpackedFloat.sub, UnpackedFloat.add, UnpackedFloat.neg, hneg, Int.sub_eq_add_neg]

/-- **Subtraction.** -/
theorem sub (ha : IsRegular a p) (hb : IsRegular b q) (h : InRange (p - q)) :
    IsRegular (UnpackedFloat.sub .binary64 a b) (nearest (p - q)) := by
  rw [sub_eq_add_neg] at h ⊢
  rw [sub_eq_add ha hb]
  exact ha.add hb.neg h

/-! #### Products and quotients -/

/-- A product of signs is the sign of the product. -/
theorem applySign_mul_applySign (s s' : Sign) (p q : ℚ) :
    applySign s p * applySign s' q = applySign (s * s') (p * q) := by
  cases s <;> cases s'
  · exact neg_mul_neg p q
  · exact neg_mul p q
  · exact mul_neg p q
  · rfl

/-- **Multiplication.** -/
theorem mul (ha : IsRegular a p) (hb : IsRegular b q) (h : InRange (p * q)) :
    IsRegular (UnpackedFloat.mul .binary64 a b) (nearest (p * q)) := by
  cases ha with
  | zero s =>
    rw [zero_mul, nearest_zero]
    cases hb <;> exact .zero _
  | @normal s m e hpos hlow hhigh hmin hmax =>
    cases hb with
    | zero s' =>
      rw [mul_zero, nearest_zero]
      exact .zero _
    | @normal s' m' e' hpos' hlow' hhigh' hmin' hmax' =>
      have hunits : (m : ℚ) * 2 ^ e * (m' * 2 ^ e') = (m * m' : ℕ) * 2 ^ (e + e') := by
        rw [zpow_add₀ two_ne_zero]
        push_cast
        ring
      have hbits : (2 : ℚ) ^ 52 ≤ (m * m' : ℕ) := by
        exact_mod_cast hlow.trans (Nat.le_mul_of_pos_right m hpos')
      have hq : (0 : ℚ) < (m * m' : ℕ) * 2 ^ (e + e') := by positivity
      rw [applySign_mul_applySign, hunits, InRange.applySign_iff] at h
      rw [applySign_mul_applySign, hunits, nearest_applySign]
      obtain ⟨hmin, hmax⟩ := h.bounds hq
      exact isRegular_roundWithAccuracy (s * s') (represents_natCast _) hbits hmin hmax

/-- The dividend is made longer by 53 bits, unless that would leave the range. -/
theorem exists_divCore_eq {m m' : ℕ} (e e' : ℤ) (hlog : m.log2 = 52) (hlog' : m'.log2 = 52) :
    ∃ shift : ℕ, divCore .binary64 m e m' e' =
        (m * 2 ^ shift / m', e - e' - shift, accuracyOfFraction (m * 2 ^ shift % m') m') ∧
      (shift = 53 ∨ e - e' - shift ≤ -1074) := by
  have htotal : totalExponent m e - totalExponent m' e' = e - e' := by
    rw [totalExponent, totalExponent, hlog, hlog']
    omega
  have htarget : Format.binary64.targetExponent (e - e') = max (e - e' - 53) (-1074) := rfl
  refine ⟨(e - e' - min (e - e') (max (e - e' - 53) (-1074))).toNat, ?_, by omega⟩
  rw [divCore, htotal, htarget, Nat.shiftLeft_eq, Int.toNat_of_nonneg (by omega), sub_sub_cancel]

theorem applySign_div_applySign (s s' : Sign) (p q : ℚ) :
    applySign s p / applySign s' q = applySign (s / s') (p / q) := by
  cases s <;> cases s'
  · exact neg_div_neg_eq p q
  · exact neg_div q p
  · exact div_neg p
  · rfl

/-- **Division** by a number that is not zero. -/
theorem div (ha : IsRegular a p) (hb : IsRegular b q) (hne : q ≠ 0) (h : InRange (p / q)) :
    IsRegular (UnpackedFloat.div .binary64 a b) (nearest (p / q)) := by
  cases hb with
  | zero s' => exact absurd rfl hne
  | @normal s' m' e' hpos' hlow' hhigh' hmin' hmax' =>
    cases ha with
    | zero s =>
      rw [zero_div, nearest_zero]
      exact .zero _
    | @normal s m e hpos hlow hhigh hmin hmax =>
      obtain ⟨shift, hcore, hshift⟩ := exists_divCore_eq e e'
        ((Nat.log2_eq_iff hpos.ne').mpr ⟨hlow, hhigh⟩)
        ((Nat.log2_eq_iff hpos'.ne').mpr ⟨hlow', hhigh'⟩)
      have hm' : (0 : ℚ) < m' := by exact_mod_cast hpos'
      have hunits : (m : ℚ) * 2 ^ e / (m' * 2 ^ e') =
          (m * 2 ^ shift : ℕ) / m' * 2 ^ (e - e' - shift) := by
        rw [zpow_sub₀ two_ne_zero, zpow_sub₀ two_ne_zero, zpow_natCast]
        push_cast
        field_simp
      have hq : (0 : ℚ) < (m * 2 ^ shift : ℕ) / m' * 2 ^ (e - e' - shift) := by positivity
      rw [applySign_div_applySign, hunits, InRange.applySign_iff] at h
      rw [applySign_div_applySign, hunits, nearest_applySign, UnpackedFloat.div, hcore]
      obtain ⟨hmin, hmax⟩ := h.bounds hq
      refine isRegular_roundWithAccuracy (s / s') (represents_div _ hpos') ?_ hmin hmax
      rcases hshift with rfl | hshift
      · rw [le_div_iff₀ hm']
        have hprod : 2 ^ 52 * m' ≤ m * 2 ^ 53 := Nat.mul_le_mul hlow hhigh'.le
        exact_mod_cast hprod
      · -- Here the exponent is the least one, and the quotient is in range.
        have hunit : (2 : ℚ) ^ (e - e' - shift) ≤ 2 ^ (-1074 : ℤ) :=
          zpow_le_zpow_right₀ one_le_two hshift
        refine le_of_mul_le_mul_right ?_ (by positivity : (0 : ℚ) < 2 ^ (-1074 : ℤ))
        calc (2 : ℚ) ^ 52 * 2 ^ (-1074 : ℤ) = 2 ^ (-1022 : ℤ) := by
              rw [← zpow_natCast, ← zpow_add₀ two_ne_zero]
              rfl
          _ ≤ (m * 2 ^ shift : ℕ) / m' * 2 ^ (e - e' - shift) := hmin
          _ ≤ (m * 2 ^ shift : ℕ) / m' * 2 ^ (-1074 : ℤ) := by gcongr

/-! #### Comparisons -/

/-- A greater exponent is a greater magnitude. -/
theorem magnitude_lt {m m' : ℕ} {e e' : ℤ} (hhigh : m < 2 ^ 53) (hlow' : 2 ^ 52 ≤ m')
    (h : e < e') : (m : ℚ) * 2 ^ e < m' * 2 ^ e' :=
  calc (m : ℚ) * 2 ^ e < 2 ^ 53 * 2 ^ e := by
        gcongr
        exact_mod_cast hhigh
    _ = 2 ^ 52 * 2 ^ (e + 1) := by
        rw [zpow_add_one₀ two_ne_zero]
        ring
    _ ≤ m' * 2 ^ e' := by
        gcongr
        · exact_mod_cast hlow'
        · exact one_le_two
        · omega

/-- Magnitudes are compared by their exponents first. -/
theorem compare_magnitudes {m m' : ℕ} (e e' : ℤ) (hlow : 2 ^ 52 ≤ m) (hhigh : m < 2 ^ 53)
    (hlow' : 2 ^ 52 ≤ m') (hhigh' : m' < 2 ^ 53) :
    (compare e e').then (compare m m') = compare ((m : ℚ) * 2 ^ e) (m' * 2 ^ e') := by
  have hunit : (0 : ℚ) < 2 ^ e := by positivity
  rcases lt_trichotomy e e' with he | rfl | he
  · rw [Int.compare_eq_lt.mpr he, compare_lt_iff_lt.mpr (magnitude_lt hhigh hlow' he)]
    rfl
  · rw [Int.compare_eq_eq.mpr rfl, Ordering.eq_then]
    rcases lt_trichotomy m m' with hm | rfl | hm
    · rw [Nat.compare_eq_lt.mpr hm, compare_lt_iff_lt.mpr (by gcongr)]
    · rw [Nat.compare_eq_eq.mpr rfl, compare_eq_iff_eq.mpr rfl]
    · rw [Nat.compare_eq_gt.mpr hm, compare_gt_iff_gt.mpr (by gcongr)]
  · rw [Int.compare_eq_gt.mpr he, compare_gt_iff_gt.mpr (magnitude_lt hhigh' hlow he)]
    rfl

/-- Negative numbers are compared the other way around. -/
theorem swap_compare (p q : ℚ) : (compare p q).swap = compare (-p) (-q) := by
  rcases lt_trichotomy p q with h | rfl | h
  · rw [compare_lt_iff_lt.mpr h, compare_gt_iff_gt.mpr (neg_lt_neg h), Ordering.swap]
  · rw [compare_eq_iff_eq.mpr rfl, compare_eq_iff_eq.mpr rfl, Ordering.swap]
  · rw [compare_gt_iff_gt.mpr h, compare_lt_iff_lt.mpr (neg_lt_neg h), Ordering.swap]

/-- **Comparison.** Zeros of different signs are equal. -/
theorem compare_eq (ha : IsRegular a p) (hb : IsRegular b q) :
    UnpackedFloat.compare a b = some (compare p q) := by
  cases ha with
  | zero s =>
    cases hb with
    | zero s' => rw [compare_eq_iff_eq.mpr rfl]; rfl
    | @normal s' m' e' hpos' hlow' hhigh' hmin' hmax' =>
      have hq : (0 : ℚ) < m' * 2 ^ e' := by positivity
      cases s' with
      | positive => rw [compare_lt_iff_lt.mpr (by exact hq)]; rfl
      | negative => rw [compare_gt_iff_gt.mpr (by exact neg_lt_zero.mpr hq)]; rfl
  | @normal s m e hpos hlow hhigh hmin hmax =>
    have hp : (0 : ℚ) < m * 2 ^ e := by positivity
    cases hb with
    | zero s' =>
      cases s with
      | positive => rw [compare_gt_iff_gt.mpr (by exact hp)]; rfl
      | negative => rw [compare_lt_iff_lt.mpr (by exact neg_lt_zero.mpr hp)]; rfl
    | @normal s' m' e' hpos' hlow' hhigh' hmin' hmax' =>
      have hq : (0 : ℚ) < m' * 2 ^ e' := by positivity
      have hmagnitudes := compare_magnitudes e e' hlow hhigh hlow' hhigh'
      cases s <;> cases s'
      · rw [applySign, applySign, ← swap_compare, ← hmagnitudes]; rfl
      · rw [compare_lt_iff_lt.mpr (by exact (neg_lt_zero.mpr hp).trans hq)]; rfl
      · rw [compare_gt_iff_gt.mpr (by exact (neg_lt_zero.mpr hq).trans hp)]; rfl
      · rw [applySign, applySign, ← hmagnitudes]; rfl

/-! #### Words -/

/-- The mantissa in the unit one is the integer part. -/
theorem roundToInt_eq (s : Sign) (m : ℕ) (e : ℤ) :
    roundToInt s m e = s.apply ⌊(m : ℚ) * 2 ^ e⌋ := by
  have hrepresents := (represents_natCast (m <<< e.toNat)).shiftRight (-e).toNat
  have hvalue : ((m <<< e.toNat : ℕ) : ℚ) / 2 ^ (-e).toNat = m * 2 ^ e := by
    have hexponent : e = (e.toNat : ℤ) - (-e).toNat := by omega
    rw [Nat.shiftLeft_eq]
    conv_rhs => rw [hexponent, zpow_sub₀ two_ne_zero, zpow_natCast, zpow_natCast]
    push_cast
    ring
  have hshift : (0 - (e - e.toNat : ℤ)).toNat = (-e).toNat := by omega
  rw [hvalue] at hrepresents
  rw [roundToInt, decreaseExponent, sub_zero, hrepresents.floor]
  dsimp only
  rw [shiftToExponent, hshift]

/-- **Cutting off the fraction.** -/
theorem toNat_toUInt64 (h : IsRegular a q) (hnonneg : 0 ≤ q) (hlt : q < 2 ^ 64) :
    (UnpackedFloat.toUInt64 a).toNat = ⌊q⌋₊ := by
  have hfloor : ⌊q⌋₊ < UInt64.size := (Nat.floor_lt hnonneg).mpr (by exact_mod_cast hlt)
  have hint : toInt 0 (UInt64.size - 1) a = ⌊q⌋ := by
    cases h with
    | zero s => rw [Int.floor_zero]; rfl
    | @normal s m e hpos hlow hhigh hmin hmax =>
      have hq : (0 : ℚ) < m * 2 ^ e := by positivity
      cases s with
      | positive => exact roundToInt_eq .positive m e
      | negative => exact absurd hnonneg (not_le.mpr (neg_lt_zero.mpr hq))
  rw [UnpackedFloat.toUInt64, hint, Int.floor_toNat, UInt64.toNat_ofNatClamp_of_lt hfloor]

/-- **A word is rounded to the nearest number.** -/
theorem ofUInt64 (n : UInt64) :
    IsRegular (UnpackedFloat.ofUInt64 .binary64 n) (nearest n.toNat) := by
  have hrange : InRange ((n.toNat : ℤ) * 2 ^ (0 : ℤ)) := by
    rw [zpow_zero, mul_one]
    exact inRange_intCast n.toNat_lt.le
  have hnormalize := isRegular_normalize hrange .positive
  rw [zpow_zero, mul_one, Int.cast_natCast] at hnormalize
  exact hnormalize

end IsRegular

/-! ### Operations on floating point numbers -/

/-- **A floating point number that is a zero or a normal number, and the rational number that it
is.** -/
def StandsFor (x : Float) (q : ℚ) : Prop :=
  IsRegular x.toModel.unpack q

/-- The number that has been packed. -/
theorem IsRegular.standsFor {a : UnpackedFloat} (h : IsRegular a q) :
    StandsFor (.ofModel (.pack a)) q := by
  have hunpack : (Float.Model.pack a).unpack = a := h.unpack_pack
  rwa [StandsFor, hunpack]

/-- **A word becomes the nearest number.** -/
theorem standsFor_toFloat (n : UInt64) : StandsFor n.toFloat (nearest n.toNat) :=
  (IsRegular.ofUInt64 n).standsFor

theorem standsFor_zero : StandsFor 0 0 :=
  IsRegular.zero .positive

/-- A power of two, by its mantissa and its exponent. -/
theorem standsFor_two_zpow {x : Float} {e : ℤ} (hmin : -1022 ≤ e) (hmax : e ≤ 1023)
    (h : x.toModel.unpack = .finite .positive (2 ^ 52) (e - 52) (by decide)) :
    StandsFor x (2 ^ e) := by
  have hvalue : (2 : ℚ) ^ e = (2 ^ 52 : ℕ) * 2 ^ (e - 52) := by
    rw [zpow_sub₀ two_ne_zero]
    push_cast
    ring
  rw [StandsFor, h, hvalue]
  exact .normal .positive _ le_rfl (by norm_num) (by omega) (by omega)

theorem standsFor_one : StandsFor 1 1 := by
  simpa using standsFor_two_zpow (x := 1) (e := 0) (by decide) (by decide) rfl

theorem standsFor_half : StandsFor 0.5 (1 / 2) := by
  simpa using standsFor_two_zpow (x := 0.5) (e := -1) (by decide) (by decide) rfl

namespace StandsFor

variable {x y : Float}

theorem nearest_eq (h : StandsFor x q) : nearest q = q :=
  IsRegular.nearest_eq h

theorem neg (h : StandsFor x q) : StandsFor (-x) (-q) :=
  (IsRegular.neg h).standsFor

theorem add (hx : StandsFor x p) (hy : StandsFor y q) (h : InRange (p + q)) :
    StandsFor (x + y) (nearest (p + q)) :=
  (IsRegular.add hx hy h).standsFor

theorem sub (hx : StandsFor x p) (hy : StandsFor y q) (h : InRange (p - q)) :
    StandsFor (x - y) (nearest (p - q)) :=
  (IsRegular.sub hx hy h).standsFor

theorem mul (hx : StandsFor x p) (hy : StandsFor y q) (h : InRange (p * q)) :
    StandsFor (x * y) (nearest (p * q)) :=
  (IsRegular.mul hx hy h).standsFor

theorem div (hx : StandsFor x p) (hy : StandsFor y q) (hne : q ≠ 0) (h : InRange (p / q)) :
    StandsFor (x / y) (nearest (p / q)) :=
  (IsRegular.div hx hy hne h).standsFor

theorem le_iff (hx : StandsFor x p) (hy : StandsFor y q) : x ≤ y ↔ p ≤ q := by
  have hmodel : x ≤ y ↔ x.toModel.unpack.le y.toModel.unpack = true := decide_eq_true_iff
  rw [hmodel, UnpackedFloat.le, IsRegular.compare_eq hx hy, Option.any_some]
  rcases lt_trichotomy p q with h | rfl | h
  · rw [compare_lt_iff_lt.mpr h]
    exact iff_of_true rfl h.le
  · rw [compare_eq_iff_eq.mpr rfl]
    exact iff_of_true rfl le_rfl
  · rw [compare_gt_iff_gt.mpr h]
    exact iff_of_false Bool.false_ne_true (not_le.mpr h)

theorem lt_iff (hx : StandsFor x p) (hy : StandsFor y q) : x < y ↔ p < q := by
  have hmodel : x < y ↔ x.toModel.unpack.lt y.toModel.unpack = true := decide_eq_true_iff
  rw [hmodel, UnpackedFloat.lt, IsRegular.compare_eq hx hy, beq_iff_eq, Option.some_inj,
    compare_lt_iff_lt]

theorem toNat_toUInt64 (h : StandsFor x q) (hnonneg : 0 ≤ q) (hlt : q < 2 ^ 64) :
    x.toUInt64.toNat = ⌊q⌋₊ :=
  IsRegular.toNat_toUInt64 h hnonneg hlt

/-! Operations that change nothing. -/

theorem plus_zero (h : StandsFor x q) (hrange : InRange q) : StandsFor (x + 0) q := by
  have hadd := h.add standsFor_zero (by rwa [add_zero])
  rwa [add_zero, h.nearest_eq] at hadd

theorem minus_zero (h : StandsFor x q) (hrange : InRange q) : StandsFor (x - 0) q := by
  have hsub := h.sub standsFor_zero (by rwa [sub_zero])
  rwa [sub_zero, h.nearest_eq] at hsub

theorem times_one (h : StandsFor x q) (hrange : InRange q) : StandsFor (x * 1) q := by
  have hmul := h.mul standsFor_one (by rwa [mul_one])
  rwa [mul_one, h.nearest_eq] at hmul

theorem over_one (h : StandsFor x q) (hrange : InRange q) : StandsFor (x / 1) q := by
  have hdiv := h.div standsFor_one one_ne_zero (by rwa [div_one])
  rwa [div_one, h.nearest_eq] at hdiv

end StandsFor

end WireCodec
