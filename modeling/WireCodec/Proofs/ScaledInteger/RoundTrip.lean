import WireCodec.Proofs.Ieee.Arithmetic
import WireCodec.Proofs.ScaledInteger.TwosComplement

/-!
# Integers through scaled fields

With a scaler of one and nothing taken off, an integer that is read from a scaled field and written
to it again should come back. Up to `2 ^ 53` the floating point number in between is that integer
exactly, and so are all the intermediate results. What is left is how a field rounds: it adds a half
and cuts off the fraction.

* Below `2 ^ 52` the sum is exact, and the integer comes back.
* From there on there is no room for a half. The sum is halfway between two integers and is rounded
  to the even one, so that an odd integer comes back as the next one
  (`WireCodec.floor_nearest_add_half`).
* The greatest integer of a field is not rounded but clamped, and comes back. The greatest integer
  is a floating point number here as well, and it may have been rounded, but only up
  (`WireCodec.le_nearest_two_pow_sub_one`), and so no other integer is clamped
  (`WireCodec.nearest_two_pow_sub_one_le_iff`).

Signed fields do the same with magnitudes, and `WireCodec.scaled_roundTrip` says it of both.
-/

namespace WireCodec

variable {x value least scaler : Float} {q : ℚ} {n bits : ℕ}

/-! ### A half more, and cut off -/

/-- **What an integer of up to 53 bits is after a half has been added and the fraction has been cut
off**: itself, but an odd one of 53 bits is halfway between two numbers then and goes on to the even
one after it. -/
theorem floor_nearest_add_half (hle : n ≤ 2 ^ 53) :
    ⌊nearest (n + 1 / 2)⌋₊ = if 2 ^ 52 < n ∧ n % 2 = 1 then n + 1 else n := by
  rw [nearest_add_half hle]
  split_ifs with hlt hodd hodd
  · omega
  · rw [Nat.floor_eq_iff (by positivity)]
    constructor <;> linarith
  · rw [Nat.floor_natCast, hodd.2]
  · rw [Nat.floor_natCast]
    omega

/-- The greatest integer of a field is not rounded down. -/
theorem le_nearest_two_pow_sub_one (bits : ℕ) :
    ((2 ^ bits - 1 : ℕ) : ℚ) ≤ nearest (2 ^ bits - 1 : ℕ) := by
  rcases Nat.lt_or_ge bits 54 with hbits | hbits
  · have hpow : 2 ^ bits ≤ 2 ^ 53 := Nat.pow_le_pow_right two_pos (by omega)
    rw [nearest_natCast (by omega)]
  · rw [Nat.cast_sub Nat.one_le_two_pow]
    push_cast
    rw [nearest_two_pow_sub_one hbits]
    linarith

/-- **An integer of up to 53 bits is clamped only if it is the greatest one of the field.** -/
theorem nearest_two_pow_sub_one_le_iff (hle : n ≤ 2 ^ 53) (hmax : n ≤ 2 ^ bits - 1) :
    nearest (2 ^ bits - 1 : ℕ) ≤ n ↔ n = 2 ^ bits - 1 := by
  constructor
  · intro h
    have hcast := (le_nearest_two_pow_sub_one bits).trans h
    exact le_antisymm hmax (by exact_mod_cast hcast)
  · rintro rfl
    rw [nearest_natCast hle]

/-- An integer and a half is in range. -/
theorem inRange_add_half (hle : n ≤ 2 ^ 53) : InRange (n + 1 / 2) := by
  have hnonneg : (0 : ℚ) ≤ n := n.cast_nonneg
  have hle' : (n : ℚ) ≤ 2 ^ 53 := by exact_mod_cast hle
  have habs : |(n : ℚ) + 1 / 2| = n + 1 / 2 := abs_of_nonneg (by linarith)
  refine inRange_of_le_abs ?_ ?_ <;> rw [habs] <;> linarith

theorem nearest_add_half_bounds (hle : n ≤ 2 ^ 53) :
    0 < nearest (n + 1 / 2) ∧ nearest (n + 1 / 2) < 2 ^ 63 := by
  have hnonneg : (0 : ℚ) ≤ n := n.cast_nonneg
  have hle' : (n : ℚ) ≤ 2 ^ 53 := by exact_mod_cast hle
  rw [nearest_add_half hle]
  split_ifs with hlt
  · constructor <;> linarith
  · have hpos : 0 < n + n % 2 := by omega
    have hlt' : n + n % 2 < 2 ^ 63 := by omega
    exact ⟨by exact_mod_cast hpos, by exact_mod_cast hlt'⟩

/-- **The integer that a field with the greatest integer `max` holds for the integer `n`.** -/
def storedInteger (max n : ℕ) : ℕ :=
  if 2 ^ 52 < n ∧ n % 2 = 1 ∧ n ≠ max then n + 1 else n

/-- The greatest integer is held as it is. -/
theorem storedInteger_self (n : ℕ) : storedInteger n n = n :=
  if_neg fun h => h.2.2 rfl

/-- Any other is what rounding and cutting off leaves of it. -/
theorem storedInteger_of_ne {max : ℕ} (hne : n ≠ max) (hle : n ≤ 2 ^ 53) :
    storedInteger max n = ⌊nearest (n + 1 / 2)⌋₊ := by
  rw [floor_nearest_add_half hle, storedInteger]
  simp only [hne, ne_eq, not_false_eq_true, and_true]

/-! ### Unsigned fields -/

/-- **What an unsigned field holds** is decided by the scaled number. -/
theorem unsignedOfScaled_eq (h : StandsFor ((value - least) * scaler) q) (hbits : bits ≤ 64) :
    unsignedOfScaled value least scaler bits =
      if nearest (2 ^ bits - 1 : ℕ) ≤ q then maxFieldValue bits
      else if q ≤ 0 then 0
      else ((value - least) * scaler + 0.5).toUInt64 := by
  have hclamp := (standsFor_toFloat (maxFieldValue bits)).le_iff h
  have hzero := h.le_iff standsFor_zero
  rw [toNat_maxFieldValue hbits] at hclamp
  unfold unsignedOfScaled
  simp only [hclamp, hzero]

theorem toNat_unsignedOfScaled (hx : StandsFor x n) (hbits : bits ≤ 64) (hle : n ≤ 2 ^ 53)
    (hmax : n ≤ 2 ^ bits - 1) :
    (unsignedOfScaled x 0 1 bits).toNat = storedInteger (2 ^ bits - 1) n := by
  have hrange : InRange n := inRange_intCast (z := n) (by omega)
  have hscaled : StandsFor ((x - 0) * 1) n := (hx.minus_zero hrange).times_one hrange
  have hclamp := nearest_two_pow_sub_one_le_iff hle hmax
  rw [unsignedOfScaled_eq hscaled hbits]
  by_cases htop : n = 2 ^ bits - 1
  · rw [if_pos (hclamp.mpr htop), toNat_maxFieldValue hbits, ← htop, storedInteger_self]
  · rw [if_neg (mt hclamp.mp htop)]
    rcases Nat.eq_zero_or_pos n with rfl | hn
    · rw [if_pos Nat.cast_zero.le]
      rfl
    · have hsum := hscaled.add standsFor_half (inRange_add_half hle)
      obtain ⟨hpos, hlt⟩ := nearest_add_half_bounds hle
      rw [if_neg (not_le.mpr (Nat.cast_pos.mpr hn)), hsum.toNat_toUInt64 hpos.le (by linarith),
        storedInteger_of_ne htop hle]

/-! ### Signed fields -/

theorem toInt_toInt64 {v : UInt64} (hlt : v.toNat < 2 ^ 63) : v.toInt64.toInt = v.toNat := by
  have hvalue : v.toInt64.toInt = (v.toNat : ℤ).bmod (2 ^ 64) := BitVec.toInt_eq_toNat_bmod _
  rw [hvalue, Int.bmod_eq_of_le (by omega) (by omega)]

theorem toInt_neg_toInt64 {v : UInt64} (hlt : v.toNat < 2 ^ 63) :
    (-v.toInt64).toInt = -v.toNat := by
  rw [Int64.toInt_neg, toInt_toInt64 hlt, Int.bmod_eq_of_le (by omega) (by omega)]

/-- **A signed word becomes the nearest number.** -/
theorem standsFor_floatOfSigned (v : Int64) : StandsFor (floatOfSigned v) (nearest v.toInt) := by
  have hlow := v.le_toInt
  have hhigh := v.toInt_lt
  have hneg : v < 0 ↔ v.toInt < 0 := Int64.lt_iff_toInt_lt
  unfold floatOfSigned
  split_ifs with hlt
  · have hword : v.toInt.natAbs < 2 ^ 64 := by omega
    have hmagnitude : (UInt64.ofNat v.toInt.natAbs).toNat = v.toInt.natAbs :=
      UInt64.toNat_ofNat_of_lt' hword
    have hvalue : (v.toInt : ℚ) = -(v.toInt.natAbs : ℕ) := by
      rw [Nat.cast_natAbs, abs_of_neg (hneg.mp hlt), Int.cast_neg, neg_neg]
    have hfloat := (standsFor_toFloat (UInt64.ofNat v.toInt.natAbs)).neg
    rwa [hmagnitude, ← nearest_neg, ← hvalue] at hfloat
  · have hnonneg : 0 ≤ v.toInt := not_lt.mp (mt hneg.mpr hlt)
    have hvalue : (v.toUInt64.toNat : ℤ) = v.toInt := by
      rw [natCast_toUInt64, Int.emod_eq_of_lt hnonneg (by omega)]
    have hfloat := standsFor_toFloat v.toUInt64
    rwa [← Int.cast_natCast, hvalue] at hfloat

/-- Cut off to a word, a number that fits is not clamped. -/
theorem toNat_min_toUInt64 (h : StandsFor x q) (hnonneg : 0 ≤ q) (hlt : q < 2 ^ 63)
    (limit : UInt64) (hlimit : 2 ^ 63 - 1 ≤ limit.toNat) :
    (min x.toUInt64 limit).toNat = ⌊q⌋₊ ∧ ⌊q⌋₊ < 2 ^ 63 := by
  have hfloor : ⌊q⌋₊ < 2 ^ 63 := (Nat.floor_lt hnonneg).mpr (by exact_mod_cast hlt)
  rw [UInt64.toNat_min, h.toNat_toUInt64 hnonneg (by linarith), min_eq_left (by omega)]
  exact ⟨rfl, hfloor⟩

theorem toInt_signedOfFloat (h : StandsFor x q) (hnonneg : 0 ≤ q) (hlt : q < 2 ^ 63) :
    (signedOfFloat x).toInt = ⌊q⌋₊ := by
  have hneg := h.lt_iff standsFor_zero
  obtain ⟨hword, hfloor⟩ := toNat_min_toUInt64 h hnonneg hlt 0x7FFFFFFFFFFFFFFF (by decide)
  rw [signedOfFloat, if_neg (mt hneg.mp hnonneg.not_gt), toInt_toInt64 (by omega), hword]

theorem toInt_signedOfFloat_neg (h : StandsFor x (-q)) (hpos : 0 < q) (hlt : q < 2 ^ 63) :
    (signedOfFloat x).toInt = -⌊q⌋₊ := by
  have hneg := h.lt_iff standsFor_zero
  have hminus := h.neg
  rw [neg_neg] at hminus
  obtain ⟨hword, hfloor⟩ := toNat_min_toUInt64 hminus hpos.le hlt 0x8000000000000000 (by decide)
  rw [signedOfFloat, if_pos (hneg.mpr (neg_lt_zero.mpr hpos)), toInt_neg_toInt64 (by omega), hword]

/-- The greatest integer of a signed field, and its negative. -/
theorem toInt_maxFieldValue (hpos : 1 ≤ bits) (hbits : bits ≤ 64) :
    (maxFieldValue (bits - 1)).toInt64.toInt = (2 ^ (bits - 1) - 1 : ℕ) ∧
      (-(maxFieldValue (bits - 1)).toInt64).toInt = -(2 ^ (bits - 1) - 1 : ℕ) := by
  have hword : (maxFieldValue (bits - 1)).toNat = 2 ^ (bits - 1) - 1 :=
    toNat_maxFieldValue (by omega)
  have hpow : 2 ^ (bits - 1) ≤ 2 ^ 63 := Nat.pow_le_pow_right two_pos (by omega)
  rw [toInt_toInt64 (by omega), toInt_neg_toInt64 (by omega), hword]
  exact ⟨rfl, rfl⟩

/-- **What a signed field holds** is decided by the scaled number. -/
theorem signedOfScaled_eq (h : StandsFor (value * scaler) q) (hpos : 1 ≤ bits) (hbits : bits ≤ 64) :
    signedOfScaled value scaler bits =
      if nearest (2 ^ (bits - 1) - 1 : ℕ) ≤ q then (maxFieldValue (bits - 1)).toInt64
      else if q ≤ -nearest (2 ^ (bits - 1) - 1 : ℕ) then -(maxFieldValue (bits - 1)).toInt64
      else if 0 ≤ q then signedOfFloat (value * scaler + 0.5)
      else signedOfFloat (value * scaler - 0.5) := by
  have hgreatest := standsFor_floatOfSigned (maxFieldValue (bits - 1)).toInt64
  rw [(toInt_maxFieldValue hpos hbits).1, Int.cast_natCast] at hgreatest
  have habove := hgreatest.le_iff h
  have hbelow := h.le_iff hgreatest.neg
  have hsign := standsFor_zero.le_iff h
  unfold signedOfScaled
  simp only [habove, hbelow, hsign]

section Signed

variable (hpos : 1 ≤ bits) (hbits : bits ≤ 64) (hle : n ≤ 2 ^ 53) (hmax : n ≤ 2 ^ (bits - 1) - 1)
include hpos hbits hle hmax

theorem toInt_signedOfScaled (hx : StandsFor x n) :
    (signedOfScaled x 1 bits).toInt = storedInteger (2 ^ (bits - 1) - 1) n := by
  have hscaled : StandsFor (x * 1) n := hx.times_one (inRange_intCast (z := n) (by omega))
  have hclamp := nearest_two_pow_sub_one_le_iff hle hmax
  have hnonneg : (0 : ℚ) ≤ n := n.cast_nonneg
  rw [signedOfScaled_eq hscaled hpos hbits]
  by_cases htop : n = 2 ^ (bits - 1) - 1
  · rw [if_pos (hclamp.mpr htop), (toInt_maxFieldValue hpos hbits).1, ← htop, storedInteger_self]
  · have hlt := not_le.mp (mt hclamp.mp htop)
    have hsum := hscaled.add standsFor_half (inRange_add_half hle)
    obtain ⟨hhalf, hword⟩ := nearest_add_half_bounds hle
    rw [if_neg hlt.not_ge, if_neg (by linarith), if_pos hnonneg,
      toInt_signedOfFloat hsum hhalf.le hword, storedInteger_of_ne htop hle]

theorem toInt_signedOfScaled_neg (hn : 0 < n) (hx : StandsFor x (-n)) :
    (signedOfScaled x 1 bits).toInt = -storedInteger (2 ^ (bits - 1) - 1) n := by
  have hrange : InRange (-n : ℚ) := inRange_neg.mpr (inRange_intCast (z := n) (by omega))
  have hscaled : StandsFor (x * 1) (-n) := hx.times_one hrange
  have hclamp := nearest_two_pow_sub_one_le_iff hle hmax
  have hnonneg := (Nat.cast_nonneg _).trans (le_nearest_two_pow_sub_one (bits - 1))
  have hnegative : (-n : ℚ) < 0 := neg_lt_zero.mpr (Nat.cast_pos.mpr hn)
  rw [signedOfScaled_eq hscaled hpos hbits, if_neg (by linarith)]
  by_cases htop : n = 2 ^ (bits - 1) - 1
  · rw [if_pos (neg_le_neg (hclamp.mpr htop)), (toInt_maxFieldValue hpos hbits).2, ← htop,
      storedInteger_self]
  · have hlt := not_le.mp (mt hclamp.mp htop)
    -- A half less is the negative of a half more.
    have hsum : (-n : ℚ) - 1 / 2 = -(n + 1 / 2) := by ring
    have hsub := hscaled.sub standsFor_half (by rw [hsum, inRange_neg]; exact inRange_add_half hle)
    rw [hsum, nearest_neg] at hsub
    obtain ⟨hhalf, hword⟩ := nearest_add_half_bounds hle
    rw [if_neg (by linarith), if_neg hnegative.not_ge, toInt_signedOfFloat_neg hsub hhalf hword,
      storedInteger_of_ne htop hle]

end Signed

/-! ### There and back -/

theorem standsFor_scaledOfUnsigned {raw : UInt64} (hle : raw.toNat ≤ 2 ^ 53) :
    StandsFor (scaledOfUnsigned raw 0 1) raw.toNat := by
  have hrange : InRange raw.toNat := inRange_intCast (z := raw.toNat) (by omega)
  have hfloat := standsFor_toFloat raw
  rw [nearest_natCast hle] at hfloat
  exact (hfloat.over_one hrange).plus_zero hrange

theorem standsFor_scaledOfSigned {raw : Int64} (hle : raw.toInt.natAbs ≤ 2 ^ 53) :
    StandsFor (scaledOfSigned raw 1) raw.toInt := by
  have hrange : InRange raw.toInt := inRange_intCast (by omega)
  have hfloat := standsFor_floatOfSigned raw
  rw [nearest_intCast hle] at hfloat
  exact hfloat.over_one hrange

/-- A signed field treats both signs alike. -/
theorem toInt_signedOfScaled_of_intCast {z : ℤ} (hpos : 1 ≤ bits) (hbits : bits ≤ 64)
    (hle : z.natAbs ≤ 2 ^ 53) (hmax : z.natAbs ≤ 2 ^ (bits - 1) - 1) (hx : StandsFor x z) :
    (signedOfScaled x 1 bits).toInt = z.sign * storedInteger (2 ^ (bits - 1) - 1) z.natAbs := by
  obtain ⟨n, rfl | rfl⟩ := z.eq_nat_or_neg
  · rw [Int.natAbs_natCast] at hle hmax ⊢
    rw [Int.cast_natCast] at hx
    rw [toInt_signedOfScaled hpos hbits hle hmax hx]
    rcases Nat.eq_zero_or_pos n with rfl | hn
    · rfl
    · rw [Int.sign_natCast_of_ne_zero hn.ne', one_mul]
  · rw [Int.natAbs_neg, Int.natAbs_natCast] at hle hmax ⊢
    rw [Int.cast_neg, Int.cast_natCast] at hx
    rcases Nat.eq_zero_or_pos n with rfl | hn
    · rw [Nat.cast_zero, neg_zero, ← Nat.cast_zero] at hx
      rw [toInt_signedOfScaled hpos hbits hle hmax hx]
      rfl
    · rw [toInt_signedOfScaled_neg hpos hbits hle hmax hn hx, Int.sign_neg,
        Int.sign_natCast_of_ne_zero hn.ne', neg_one_mul]

/-- **An integer of up to 53 bits comes back from a scaled field, but an odd one of all 53 bits may
come back as its neighbour.** The number that the field stands for is the integer itself, exactly.
To store it a half is added and the fraction is cut off, and from `2 ^ 52` on the sum has no room
for the half: it is rounded to the even one of the two integers next to it. So an odd integer above
`2 ^ 52` comes back as the next one further away from zero, and every other one as it was. The
greatest integer of the field is safe, as it is not rounded at all. -/
theorem scaled_roundTrip (hpos : 1 ≤ bits) (hbits : bits ≤ 64) :
    (∀ raw : UInt64, raw.toNat ≤ min (2 ^ 53) (2 ^ bits - 1) →
      (unsignedOfScaled (scaledOfUnsigned raw 0 1) 0 1 bits).toNat =
        storedInteger (2 ^ bits - 1) raw.toNat) ∧
    ∀ raw : Int64, raw.toInt.natAbs ≤ min (2 ^ 53) (2 ^ (bits - 1) - 1) →
      (signedOfScaled (scaledOfSigned raw 1) 1 bits).toInt =
        raw.toInt.sign * storedInteger (2 ^ (bits - 1) - 1) raw.toInt.natAbs := by
  constructor
  · intro raw hraw
    obtain ⟨hle, hmax⟩ := le_min_iff.mp hraw
    exact toNat_unsignedOfScaled (standsFor_scaledOfUnsigned hle) hbits hle hmax
  · intro raw hraw
    obtain ⟨hle, hmax⟩ := le_min_iff.mp hraw
    exact toInt_signedOfScaled_of_intCast hpos hbits hle hmax (standsFor_scaledOfSigned hle)

/-- `2 ^ 52 + 1` comes back as `2 ^ 52 + 2`, and its negative likewise. -/
theorem scaled_roundTrip_odd :
    (unsignedOfScaled (scaledOfUnsigned 4503599627370497 0 1) 0 1 64).toNat = 4503599627370498 ∧
      (signedOfScaled (scaledOfSigned (-4503599627370497) 1) 1 64).toInt = -4503599627370498 :=
  ⟨(scaled_roundTrip (by decide) (by decide)).1 4503599627370497 (by decide),
    (scaled_roundTrip (by decide) (by decide)).2 (-4503599627370497) (by decide)⟩

end WireCodec
