import WireCodec.Ieee
import WireCodec.Proofs.Ieee.Arithmetic

/-!
# Numbers and their patterns

A floating point number is its unpacked form: unpacking is undone by packing
(`WireCodec.pack_unpack`), because there is only one NaN. Two things follow from this. A finite
pattern is that of the number made from it (`WireCodec.toBits_ofBits`), so that what the number
stands for can be read off its fields. And an operation that leaves the unpacked form of an operand
as it is leaves the operand as it is: so does adding to zero, unless the operand is itself a zero
(`WireCodec.zero_add_of_ne`), as the two zeros add up to the positive one.
-/

namespace WireCodec

open Float.Model Float.Model.UnpackedFloat

/-! ### What is unpacked is packed again -/

theorem toBitVec_ofBitVec (b : BitVec 1) : (Sign.ofBitVec b).toBitVec = b := by
  revert b
  decide

/-- A word is its sign, its exponent and its mantissa. -/
theorem packComponents_fields (b : BitVec Format.binary64.numBits) :
    packComponents .binary64 (Sign.ofBitVec (unpackSign b)) (unpackExponent b) (unpackMantissa b) =
      b := by
  rw [packComponents, toBitVec_ofBitVec]
  refine BitVec.eq_of_getElem_eq fun i hi => ?_
  simp only [unpackSign, unpackExponent, unpackMantissa, BitVec.extractLsb, BitVec.getElem_append]
  grind

/-- A number without the implied bit is packed with the exponent field zero. -/
theorem pack_of_subnormal (s : Sign) {m : ℕ} (hpos : 0 < m) (hlt : m < 2 ^ 52) :
    UnpackedFloat.pack .binary64 (.finite s m (-1074) hpos) =
      packComponents .binary64 s 0#11 (BitVec.ofNat 52 m) := by
  have hlog : m.log2 + 1 ≠ Format.binary64.mantissaBits := by
    have hlt' : m.log2 < 52 := (Nat.log2_lt hpos.ne').mpr hlt
    have hbits : Format.binary64.mantissaBits = 53 := rfl
    omega
  have hbiased : (-1074 + (Format.binary64.exponentBias : ℤ) +
      (Format.binary64.mantissaBitsWithoutImplicit : ℤ)).toNat = 1 := rfl
  rw [UnpackedFloat.pack]
  simp only [hbiased]
  rw [if_neg (by decide), if_neg hlog]

section Words

variable {b : BitVec Format.binary64.numBits}

/-- The infinities, and the one NaN. -/
theorem pack_unpack_of_ones (h : Format.binary64.Valid b) (hones : unpackExponent b = -1#_) :
    UnpackedFloat.pack .binary64 (UnpackedFloat.unpack .binary64 b) = b := by
  rw [UnpackedFloat.unpack, if_pos hones]
  by_cases hzero : unpackMantissa b = 0#_
  · have hself := packComponents_fields b
    rw [hones, hzero] at hself
    rw [if_pos hzero, UnpackedFloat.pack, packedInfinity]
    exact hself
  · rw [if_neg hzero, UnpackedFloat.pack]
    exact (h.eq_packedNaN hones hzero).symm

/-- The zeros, and the numbers without the implied bit. -/
theorem pack_unpack_of_zero (hleast : unpackExponent b = 0#_) :
    UnpackedFloat.pack .binary64 (UnpackedFloat.unpack .binary64 b) = b := by
  have hself := packComponents_fields b
  rw [hleast] at hself
  rw [UnpackedFloat.unpack, if_neg (hleast ▸ by decide), if_pos hleast]
  by_cases hzero : unpackMantissa b = 0#_
  · rw [hzero] at hself
    rw [dif_pos hzero, UnpackedFloat.pack, packedZero]
    exact hself
  · have hpos : 0 < (unpackMantissa b).toNat := Nat.pos_of_ne_zero fun heq =>
      hzero (BitVec.eq_of_toNat_eq heq)
    have hfield : ((unpackExponent b).toNat : ℤ) - ((Format.binary64.exponentBias : ℤ) +
        (Format.binary64.mantissaBitsWithoutImplicit : ℤ)) + 1 = -1074 := by
      rw [hleast]
      rfl
    rw [dif_neg hzero]
    simp only [hfield]
    rw [pack_of_subnormal _ hpos (unpackMantissa b).isLt, BitVec.ofNat_toNat, BitVec.setWidth_eq]
    exact hself

/-- The numbers with the implied bit. -/
theorem pack_unpack_of_implied (hones : unpackExponent b ≠ -1#_)
    (hleast : unpackExponent b ≠ 0#_) :
    UnpackedFloat.pack .binary64 (UnpackedFloat.unpack .binary64 b) = b := by
  have hbias : (Format.binary64.exponentBias : ℤ) = 1023 := rfl
  have hlength : (Format.binary64.mantissaBitsWithoutImplicit : ℤ) = 52 := rfl
  have hexponent : (unpackExponent b).toNat < 2 ^ 11 := (unpackExponent b).isLt
  have hmantissa : (unpackMantissa b).toNat < 2 ^ 52 := (unpackMantissa b).isLt
  have hfirst : (unpackExponent b).toNat ≠ 0 := fun heq => hleast (BitVec.eq_of_toNat_eq heq)
  have hlast : (unpackExponent b).toNat ≠ 2047 := fun heq => hones (BitVec.eq_of_toNat_eq heq)
  have hleading : (1#1 ++ unpackMantissa b).toNat = 2 ^ 52 + (unpackMantissa b).toNat :=
    toNat_one_append _
  have hpos : 0 < (1#1 ++ unpackMantissa b).toNat := by omega
  have hbits : BitVec.ofNat 52 (1#1 ++ unpackMantissa b).toNat = unpackMantissa b := by
    refine BitVec.eq_of_toNat_eq ?_
    rw [BitVec.toNat_ofNat, hleading, Nat.add_mod_left, Nat.mod_eq_of_lt hmantissa]
  have hfield : ((unpackExponent b).toNat : ℤ) - ((Format.binary64.exponentBias : ℤ) +
      (Format.binary64.mantissaBitsWithoutImplicit : ℤ)) + 1075 = (unpackExponent b).toNat := by
    rw [hbias, hlength]
    omega
  rw [UnpackedFloat.unpack, if_neg hones, if_neg hleast,
    pack_of_normal _ hpos (by omega) (by omega) hfield (by omega), hbits, BitVec.ofNat_toNat,
    BitVec.setWidth_eq]
  exact packComponents_fields b

/-- **What is unpacked is packed again**, if the word is no other NaN than the one there is. -/
theorem pack_unpack (h : Format.binary64.Valid b) :
    UnpackedFloat.pack .binary64 (UnpackedFloat.unpack .binary64 b) = b := by
  by_cases hones : unpackExponent b = -1#_
  · exact pack_unpack_of_ones h hones
  by_cases hleast : unpackExponent b = 0#_
  · exact pack_unpack_of_zero hleast
  · exact pack_unpack_of_implied hones hleast

end Words

/-- A floating point number is what its unpacked form packs to. -/
theorem pack_unpack_toModel (x : Float) : pack x.toModel.unpack = x.toModel := by
  obtain ⟨⟨bits, hvalid⟩⟩ := x
  rw [Float.Model.pack, Float.Model.mk.injEq]
  exact UInt64.toBitVec_inj.mp (pack_unpack hvalid)

/-! ### Adding to zero -/

theorem unpack_ofInt_zero : (Float.ofInt 0).toModel.unpack = .zero .positive := by
  rfl

/-- **Zero and a number that is none** add up to that number. -/
theorem zero_add_of_ne {x : Float} (h : (x == Float.ofInt 0) = false) : Float.ofInt 0 + x = x := by
  change x.toModel.unpack.beq (Float.ofInt 0).toModel.unpack = false at h
  have hsum : (Float.ofInt 0 + x).toModel =
      pack (UnpackedFloat.add .binary64 (Float.ofInt 0).toModel.unpack x.toModel.unpack) := rfl
  rw [unpack_ofInt_zero] at h hsum
  have hadd : UnpackedFloat.add .binary64 (.zero .positive) x.toModel.unpack =
      x.toModel.unpack := by
    cases hx : x.toModel.unpack with
    | zero s =>
      rw [hx] at h
      cases h
    | _ => rfl
  rw [hadd, pack_unpack_toModel] at hsum
  exact congrArg Float.ofModel hsum

/-! ### Patterns -/

/-- The exponent of a word. -/
theorem toNat_unpackExponent (bits : UInt64) :
    (@unpackExponent .binary64 bits.toBitVec).toNat = (⟨bits⟩ : Binary64).exponent := by
  rw [unpackExponent, BitVec.toNat_cast, BitVec.extractLsb_toNat, Nat.shiftRight_eq_div_pow]
  rfl

/-- **A finite pattern** is kept as it is. -/
theorem toBits_ofBits {bits : UInt64} (h : (⟨bits⟩ : Binary64).exponent ≠ 2047) :
    (Float.ofBits bits).toBits = bits := by
  have hvalid : Format.binary64.Valid bits.toBitVec := by
    refine ⟨fun hones => absurd ?_ h⟩
    rw [← toNat_unpackExponent, hones]
    rfl
  exact UInt64.toBitVec_inj.mp (pack_unpack hvalid)

theorem ofFloat_ofBits {x : Binary64} (h : x.exponent ≠ 2047) :
    FloatValue.ofFloat (Float.ofBits x.bits) = x.value := by
  rw [FloatValue.ofFloat, toBits_ofBits h]

end WireCodec
