import Mathlib.Tactic.Linarith
import Mathlib.Tactic.Positivity
import WireCodec.Proofs.BitField.Effects
import WireCodec.Proofs.Field.Record

/-!
# Signed integers in bits and bytes

The pattern of a signed integer and the signed integer of a pattern are two views of one class of
numbers modulo `2 ^ bits`: the pattern is the one in the class that is not negative
(`WireCodec.natCast_twosComplement`), and the signed integer is the one nearest to zero, the
negative one of two (`WireCodec.toInt_signExtend`). So each can be had from the other, and what a
word has above the field does not matter.

With this, signed integers pass through bit fields, at any place in a buffer, and through fields of
bytes in either order. The signed integer of a pattern is also what two shifts make of it, up to the
top of the word and down again with the sign (`WireCodec.signExtend_eq_shifts`).
-/

namespace WireCodec

/-! ### The residue nearest to zero -/

section Bmod

variable {bits : ℕ}

/-- A power of two is twice the half of it. -/
theorem two_pow_eq_two_mul_half (hpos : 1 ≤ bits) :
    ((2 ^ bits : ℕ) : ℤ) = 2 * 2 ^ (bits - 1) := by
  obtain ⟨half, rfl⟩ : ∃ half, bits = half + 1 := ⟨bits - 1, by omega⟩
  rw [Nat.add_sub_cancel]
  push_cast
  rw [pow_succ, mul_comm]

/-- The residue nearest to zero is at most half the modulus away from it. -/
theorem bmod_two_pow_bounds (hpos : 1 ≤ bits) (a : ℤ) :
    -2 ^ (bits - 1) ≤ a.bmod (2 ^ bits) ∧ a.bmod (2 ^ bits) < 2 ^ (bits - 1) := by
  have hhalf := two_pow_eq_two_mul_half hpos
  have hle := Int.le_bmod (x := a) (Nat.two_pow_pos bits)
  have hlt := Int.bmod_lt (x := a) (Nat.two_pow_pos bits)
  rw [hhalf] at hle hlt
  omega

/-- An integer that is no further away from zero is its own residue. -/
theorem bmod_two_pow_eq_self (hpos : 1 ≤ bits) {a : ℤ} (hle : -2 ^ (bits - 1) ≤ a)
    (hlt : a < 2 ^ (bits - 1)) : a.bmod (2 ^ bits) = a := by
  have hhalf := two_pow_eq_two_mul_half hpos
  refine Int.bmod_eq_of_le_mul_two ?_ ?_ <;> rw [hhalf] <;> linarith

/-- Shifted up, the residue is that of the number that is shifted up. -/
theorem bmod_mul_two_pow (hpos : 1 ≤ bits) (a : ℤ) (shift : ℕ) :
    (a * 2 ^ shift).bmod (2 ^ (bits + shift)) = a.bmod (2 ^ bits) * 2 ^ shift := by
  have hshift : (0 : ℤ) < 2 ^ shift := by positivity
  have hmodulus : ((2 ^ (bits + shift) : ℕ) : ℤ) = (2 ^ bits : ℕ) * 2 ^ shift := by
    push_cast
    rw [pow_add]
  obtain ⟨hle, hlt⟩ := bmod_two_pow_bounds hpos a
  have hhalf := two_pow_eq_two_mul_half hpos
  have hfix : (a.bmod (2 ^ bits) * 2 ^ shift).bmod (2 ^ (bits + shift)) =
      a.bmod (2 ^ bits) * 2 ^ shift := by
    refine Int.bmod_eq_of_le_mul_two ?_ ?_ <;> rw [hmodulus, hhalf] <;> nlinarith
  have hdvd : ((2 ^ (bits + shift) : ℕ) : ℤ) ∣
      a * 2 ^ shift - a.bmod (2 ^ bits) * 2 ^ shift := by
    rw [← sub_mul, hmodulus]
    exact mul_dvd_mul_right (dvd_sub_comm.mp Int.dvd_bmod_sub_self) _
  rw [← hfix, Int.bmod_eq_bmod_iff_bmod_sub_eq_zero]
  exact Int.bmod_eq_zero_of_dvd hdvd

end Bmod

/-! ### The two views -/

section Views

variable {bits : ℕ}

/-- The pattern of a word is the word modulo its size. -/
theorem natCast_toUInt64 (v : Int64) : (v.toUInt64.toNat : ℤ) = v.toInt % 2 ^ 64 := by
  have hvalue : v.toInt = (v.toUInt64.toNat : ℤ).bmod (2 ^ 64) :=
    BitVec.toInt_eq_toNat_bmod v.toBitVec
  have hlt := v.toUInt64.toNat_lt
  have hmod := Int.bmod_emod (x := v.toUInt64.toNat) (m := 2 ^ 64)
  rw [← hvalue] at hmod
  push_cast at hmod
  omega

/-- **The pattern of a signed integer** is the integer modulo `2 ^ bits`. -/
theorem natCast_twosComplement (hle : bits ≤ 64) (v : Int64) :
    ((twosComplement v bits).toNat : ℤ) = v.toInt % 2 ^ bits := by
  have hdvd : (2 : ℤ) ^ bits ∣ 2 ^ 64 := pow_dvd_pow 2 hle
  rw [twosComplement, toNat_and_maxFieldValue hle, Int.natCast_emod, natCast_toUInt64]
  push_cast
  exact Int.emod_emod_of_dvd _ hdvd

/-- **The signed integer of a pattern** is the residue of it that is nearest to zero. -/
theorem toInt_signExtend (hpos : 1 ≤ bits) (hle : bits ≤ 64) (raw : UInt64) :
    (signExtend raw bits).toInt = (raw.toNat : ℤ).bmod (2 ^ bits) := by
  obtain ⟨hlower, hupper⟩ := bmod_two_pow_bounds hpos raw.toNat
  have hword : (2 : ℤ) ^ (bits - 1) ≤ 2 ^ 63 := pow_le_pow_right₀ (by norm_num) (by omega)
  rw [signExtend, Nat.min_eq_left hle, Int64.toInt_ofInt_of_le (by omega) (by omega)]

/-- A signed integer that fits comes back from its pattern. -/
theorem signExtend_twosComplement (hpos : 1 ≤ bits) (hle : bits ≤ 64) {v : Int64}
    (hlower : -2 ^ (bits - 1) ≤ v.toInt) (hupper : v.toInt < 2 ^ (bits - 1)) :
    signExtend (twosComplement v bits) bits = v := by
  have hmod : v.toInt % 2 ^ bits = v.toInt % ((2 ^ bits : ℕ) : ℤ) := by push_cast; rfl
  rw [← Int64.toInt_inj, toInt_signExtend hpos hle, natCast_twosComplement hle, hmod,
    Int.emod_bmod, bmod_two_pow_eq_self hpos hlower hupper]

/-- **A pattern comes back from its signed integer**, without what stands above it. -/
theorem toNat_twosComplement_signExtend (hpos : 1 ≤ bits) (hle : bits ≤ 64) (raw : UInt64) :
    (twosComplement (signExtend raw bits) bits).toNat = raw.toNat % 2 ^ bits := by
  have hmod := Int.bmod_emod (x := raw.toNat) (m := 2 ^ bits)
  have hpattern := natCast_twosComplement hle (signExtend raw bits)
  rw [toInt_signExtend hpos hle] at hpattern
  push_cast at hmod
  rw [hmod] at hpattern
  exact_mod_cast hpattern

/-- What stands above a pattern does not matter. -/
theorem signExtend_congr (hpos : 1 ≤ bits) (hle : bits ≤ 64) {raw raw' : UInt64}
    (h : raw.toNat % 2 ^ bits = raw'.toNat % 2 ^ bits) :
    signExtend raw bits = signExtend raw' bits := by
  rw [← Int64.toInt_inj, toInt_signExtend hpos hle, toInt_signExtend hpos hle,
    ← Int.emod_bmod (raw.toNat : ℤ), ← Int.emod_bmod (raw'.toNat : ℤ), ← Int.natCast_emod,
    ← Int.natCast_emod, h]

/-- **The signed integer of a pattern by shifts**: the pattern goes up to the top of the word and
comes down again with copies of its sign. -/
theorem signExtend_eq_shifts (hpos : 1 ≤ bits) (hle : bits ≤ 64) (raw : UInt64) :
    signExtend raw bits =
      (raw <<< UInt64.ofNat (64 - bits)).toInt64 >>> Int64.ofNat (64 - bits) := by
  have hamount : ∀ shift < 64, (UInt64.ofNat shift).toNat % 64 = shift ∧
      ((Int64.ofNat shift).toBitVec.smod 64).toNat = shift := by decide
  obtain ⟨hup, hdown⟩ := hamount (64 - bits) (by omega)
  have htop : (raw <<< UInt64.ofNat (64 - bits)).toInt64.toInt =
      (raw.toNat : ℤ).bmod (2 ^ bits) * 2 ^ (64 - bits) := by
    have hshift : (raw <<< UInt64.ofNat (64 - bits)).toNat =
        raw.toNat * 2 ^ (64 - bits) % 2 ^ 64 := by
      rw [UInt64.toNat_shiftLeft, hup, Nat.shiftLeft_eq]
    have hwidth : bits + (64 - bits) = 64 := by omega
    have hvalue : (raw <<< UInt64.ofNat (64 - bits)).toInt64.toInt =
        ((raw <<< UInt64.ofNat (64 - bits)).toNat : ℤ).bmod (2 ^ 64) :=
      BitVec.toInt_eq_toNat_bmod _
    have hmul := bmod_mul_two_pow hpos raw.toNat (64 - bits)
    rw [hwidth] at hmul
    rw [hvalue, hshift, Int.natCast_emod, Int.emod_bmod, ← hmul]
    push_cast
    rfl
  have hpower : ((2 ^ (64 - bits) : ℕ) : ℤ) = 2 ^ (64 - bits) := by push_cast; rfl
  rw [← Int64.toInt_inj, toInt_signExtend hpos hle, ← Int64.toInt_toBitVec,
    Int64.toBitVec_shiftRight, BitVec.sshiftRight', hdown, BitVec.toInt_sshiftRight,
    Int64.toInt_toBitVec, htop, Int.shiftRight_eq_div_pow, hpower]
  exact (Int.mul_ediv_cancel _ (by positivity)).symm

end Views

/-! ### Through bits and bytes -/

/-- A bit field holds the pattern of a signed integer that fits into it, wherever it is. -/
theorem BitField.exists_read?_twosComplement (f : BitField) (buffer : List UInt8)
    (hle : f.width ≤ 64) (hfit : f.offset + f.width ≤ 8 * buffer.length) (v : Int64) :
    ∃ buffer', f.overwrite? buffer (twosComplement v f.width) = some buffer' ∧
      f.read? buffer' = some (twosComplement v f.width) := by
  obtain ⟨buffer', hwrite, hlength, hholds, -⟩ :=
    f.exists_overwrite?_eq_some buffer (twosComplement v f.width) hfit
  have hlt : (twosComplement v f.width).toNat < 2 ^ f.width := by
    rw [twosComplement, toNat_and_maxFieldValue hle]
    exact Nat.mod_lt _ (Nat.two_pow_pos _)
  refine ⟨buffer', hwrite, ?_⟩
  rw [read?_eq_some (hlength.symm ▸ hfit) hlt hholds, UInt64.ofNat_toNat]

/-- **A signed field** is read as the signed integer of the pattern that was written. -/
theorem exists_signed_append (n : ByteCount) (order : ByteOrder) (output : List UInt8)
    (v : Int64) :
    ∃ written, FieldWriter.signed order output v n.count = .ok written ∧
      (FieldReader.signed order n.count).run.run ⟨written, output.length⟩ =
        (.ok (signExtend (twosComplement v (8 * n.count)) (8 * n.count)),
          ⟨written, written.length⟩) := by
  have hle : 8 * n.count ≤ 64 := by
    have := n.le_eight
    omega
  have hpattern : UInt64.ofNat (v.toUInt64.toNat % 256 ^ n.count) =
      twosComplement v (8 * n.count) := by
    rw [two_pow_eight_mul, ← toNat_and_maxFieldValue hle, UInt64.ofNat_toNat]
    rfl
  refine ⟨_, (WireField.signed v n).write_eq order output, ?_⟩
  have hbytes := (WireField.signed v n).run_bytes_append order output []
  rw [List.append_nil] at hbytes
  rw [FieldReader.run_signed hbytes, (WireField.signed v n).decode_bytes order, List.length_append,
    (WireField.signed v n).length_bytes order]
  simp only [WireField.pattern, WireField.kind, FieldKind.size, hpattern]

/-- **Signed integers pass through bits and bytes.** A signed integer that fits into a bit field
comes back from it, wherever the field lies in a buffer that has it. The signed integer of the low
bits of a word depends on these bits only, has as many of them, is what two shifts make of the word,
and its pattern is these bits again. And any signed word comes back from a field of whole bytes, in
either order, as the signed integer of its low bits. -/
theorem signed_roundTrip :
    (∀ (f : BitField) (buffer : List UInt8) (v : Int64), 1 ≤ f.width → f.width ≤ 64 →
      f.offset + f.width ≤ 8 * buffer.length →
      -2 ^ (f.width - 1) ≤ v.toInt → v.toInt < 2 ^ (f.width - 1) →
      ∃ buffer' raw, f.overwrite? buffer (twosComplement v f.width) = some buffer' ∧
        f.read? buffer' = some raw ∧ signExtend raw f.width = v) ∧
    (∀ (bits : ℕ) (raw : UInt64), 1 ≤ bits → bits ≤ 64 →
      (∀ raw' : UInt64, raw.toNat % 2 ^ bits = raw'.toNat % 2 ^ bits →
        signExtend raw bits = signExtend raw' bits) ∧
      -2 ^ (bits - 1) ≤ (signExtend raw bits).toInt ∧
      (signExtend raw bits).toInt < 2 ^ (bits - 1) ∧
      (twosComplement (signExtend raw bits) bits).toNat = raw.toNat % 2 ^ bits ∧
      signExtend raw bits =
        (raw <<< UInt64.ofNat (64 - bits)).toInt64 >>> Int64.ofNat (64 - bits)) ∧
    ∀ (n : ByteCount) (order : ByteOrder) (output : List UInt8) (v : Int64),
      ∃ written, FieldWriter.signed order output v n.count = .ok written ∧
        (FieldReader.signed order n.count).run.run ⟨written, output.length⟩ =
          (.ok (signExtend (twosComplement v (8 * n.count)) (8 * n.count)),
            ⟨written, written.length⟩) := by
  refine ⟨fun f buffer v hpos hle hfit hlower hupper => ?_, fun bits raw hpos hle => ?_,
    exists_signed_append⟩
  · obtain ⟨buffer', hwrite, hread⟩ :=
      f.exists_read?_twosComplement buffer hle hfit v
    exact ⟨buffer', _, hwrite, hread, signExtend_twosComplement hpos hle hlower hupper⟩
  · obtain ⟨hlower, hupper⟩ := bmod_two_pow_bounds hpos raw.toNat
    rw [← toInt_signExtend hpos hle] at hlower hupper
    exact ⟨fun raw' h => signExtend_congr hpos hle h, hlower, hupper,
      toNat_twosComplement_signExtend hpos hle raw, signExtend_eq_shifts hpos hle raw⟩

/-- The least of the integers of ten bits across a byte border, and a pattern of five bits with
others above it. -/
theorem signed_roundTrip_least :
    let f : BitField := ⟨3, 10⟩
    (1 ≤ f.width ∧ f.width ≤ 64 ∧ f.offset + f.width ≤ 8 * [0xFF, 0xFF].length ∧
      -2 ^ (f.width - 1) ≤ (-512 : Int64).toInt ∧ (-512 : Int64).toInt < 2 ^ (f.width - 1) ∧
      ∃ buffer' raw, f.overwrite? [0xFF, 0xFF] (twosComplement (-512) f.width) = some buffer' ∧
        f.read? buffer' = some raw ∧ signExtend raw f.width = -512) ∧
    (0xF0 : UInt64).toNat % 2 ^ 5 = (0x10 : UInt64).toNat % 2 ^ 5 ∧
      signExtend 0xF0 5 = signExtend 0x10 5 ∧
      (twosComplement (signExtend 0xF0 5) 5).toNat = 16 := by
  intro f
  have hleast : -2 ^ (f.width - 1) ≤ (-512 : Int64).toInt := by decide
  refine ⟨⟨by decide, by decide, by decide, hleast, by decide, ?_⟩, by decide, ?_, ?_⟩
  · exact signed_roundTrip.1 f [0xFF, 0xFF] (-512) (by decide) (by decide) (by decide) hleast
      (by decide)
  · exact (signed_roundTrip.2.1 5 0xF0 (by decide) (by decide)).1 0x10 (by decide)
  · exact (signed_roundTrip.2.1 5 0xF0 (by decide) (by decide)).2.2.2.1

end WireCodec
