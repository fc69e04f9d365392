import Mathlib.Algebra.BigOperators.Group.Finset.Basic
import Mathlib.Algebra.BigOperators.Ring.Finset
import WireCodec.Proofs.BitField.Bits

/-!
# What reading and writing a field do, bit for bit

The bits of a field spell a number, the most significant one first
(`WireCodec.BitField.number`). Reading gives that number, whatever stands around the field
(`WireCodec.BitField.read?_eq_number`).

Both ways of writing succeed on every field that the buffer holds, and what they leave behind is
known of every bit of the buffer:

* writing in place makes the bits of the field those of the value and changes no other bit, so
  that reading gives the value back, without the bits that the field has no room for
  (`WireCodec.BitField.overwrite?_exact`);
* sequential writing treats bits differently by the byte they are in
  (`WireCodec.BitField.IsWritten`, `WireCodec.BitField.write?_isWritten`). Bytes that the field
  covers get the bits of the value, and the others are merged with them. What a value has above the
  width of the field is not cut off, so it gets into the bits before the field. A field of at most
  a byte that starts with a byte takes all of it, with zeros behind the value.

Where the bits of the field are zero and the value fits, both leave the same in the field.
-/

namespace WireCodec.BitField

variable {f : BitField} {buffer buffer' : List UInt8} {index : ℕ}

/-! ### The number in a field -/

/-- **The number that the bits of a field spell**, the most significant bit first. -/
def number (f : BitField) (buffer : List UInt8) : ℕ :=
  ∑ k ∈ Finset.range f.width, (bitAt buffer (f.offset + k)).toNat * 2 ^ (f.width - 1 - k)

/-- One bit more doubles the number and adds the bit. -/
theorem number_succ (offset width : ℕ) (buffer : List UInt8) :
    (⟨offset, width + 1⟩ : BitField).number buffer =
      2 * (⟨offset, width⟩ : BitField).number buffer + (bitAt buffer (offset + width)).toNat := by
  have hlast : width + 1 - 1 - width = 0 := by omega
  simp only [number]
  rw [Finset.sum_range_succ, hlast, Nat.pow_zero, Nat.mul_one, Finset.mul_sum]
  congr 1
  refine Finset.sum_congr rfl fun k hk => ?_
  have hplace : width + 1 - 1 - k = width - 1 - k + 1 := by
    have := Finset.mem_range.mp hk
    omega
  rw [hplace, Nat.pow_succ, ← Nat.mul_assoc, Nat.mul_comm]

/-- **The number fits into the field.** -/
theorem number_lt (f : BitField) (buffer : List UInt8) : f.number buffer < 2 ^ f.width := by
  obtain ⟨offset, width⟩ := f
  induction width with
  | zero => exact Nat.one_pos
  | succ width ih =>
    have hbit := Bool.toNat_le (bitAt buffer (offset + width))
    rw [number_succ, Nat.pow_succ]
    simp only at ih
    omega

/-- **The bits of the number** are those of the field. -/
theorem testBit_number (f : BitField) (buffer : List UInt8) (j : ℕ) :
    (f.number buffer).testBit j =
      (decide (j < f.width) && bitAt buffer (f.offset + f.width - 1 - j)) := by
  obtain ⟨offset, width⟩ := f
  -- The last bit of the field is the least one of the number; the half of it is the number without.
  induction width generalizing j with
  | zero => simp [number]
  | succ width ih =>
    have hbit := Bool.toNat_lt (bitAt buffer (offset + width))
    rw [number_succ]
    cases j with
    | zero =>
      rw [Nat.testBit_zero, Nat.mul_add_mod, Nat.mod_eq_of_lt hbit]
      cases hlast : bitAt buffer (offset + width) <;> simp [hlast]
    | succ j =>
      have hhalf : (2 * (⟨offset, width⟩ : BitField).number buffer +
          (bitAt buffer (offset + width)).toNat) / 2 =
            (⟨offset, width⟩ : BitField).number buffer := by omega
      have hplace : offset + (width + 1) - 1 - (j + 1) = offset + width - 1 - j := by omega
      rw [Nat.testBit_succ, hhalf, ih]
      simp only [hplace, Nat.add_lt_add_iff_right]

/-- A field holds its number. -/
theorem holds_number (f : BitField) (buffer : List UInt8) : f.Holds buffer (f.number buffer) := by
  intro i hoffset hend
  have hplace : f.offset + f.width - 1 - (f.offset + f.width - 1 - i) = i := by omega
  rw [testBit_number, decide_eq_true (by omega), Bool.true_and, hplace]

/-- **A field that holds a value spells the low bits of it.** -/
theorem number_of_holds {value : ℕ} (h : f.Holds buffer value) :
    f.number buffer = value % 2 ^ f.width := by
  refine Nat.eq_of_testBit_eq fun j => ?_
  rw [testBit_number, Nat.testBit_mod_two_pow]
  by_cases hj : j < f.width
  · have hplace : f.offset + f.width - 1 - (f.offset + f.width - 1 - j) = j := by omega
    rw [h _ (by omega) (by omega), hplace]
  · rw [decide_eq_false hj, Bool.false_and, Bool.false_and]

/-- Fields with the same bits spell the same number. -/
theorem number_congr (h : ∀ i, f.Covers i → bitAt buffer' i = bitAt buffer i) :
    f.number buffer' = f.number buffer := by
  have hholds : f.Holds buffer' (f.number buffer) := fun i hoffset hend =>
    (h i ⟨hoffset, hend⟩).trans (f.holds_number buffer i hoffset hend)
  rw [number_of_holds hholds, Nat.mod_eq_of_lt (f.number_lt buffer)]

/-! ### Reading -/

/-- **Reading gives the number in the field.** -/
theorem read?_eq_number (h : f.offset + f.width ≤ 8 * buffer.length) :
    f.read? buffer = some (UInt64.ofNat (f.number buffer)) :=
  read?_eq_some h (f.number_lt buffer) (f.holds_number buffer)

/-- What a field of at most a word spells is a word. -/
theorem toNat_ofNat_number (hwidth : f.width ≤ 64) (buffer : List UInt8) :
    (UInt64.ofNat (f.number buffer)).toNat = f.number buffer :=
  UInt64.toNat_ofNat_of_lt'
    (Nat.lt_of_lt_of_le (f.number_lt buffer) (Nat.pow_le_pow_right Nat.two_pos hwidth))

/-- **Reading a field** of a buffer that has it succeeds. The result is the sum of the bits of the
field, each with the weight of its place, so that it fits into the field; and it is the same for all
buffers that have these bits in the field, whatever else they hold and however long they are. -/
theorem read?_eq_sum (f : BitField) (buffer : List UInt8) (hwidth : f.width ≤ 64)
    (hfit : f.offset + f.width ≤ 8 * buffer.length) :
    ∃ result : UInt64, f.read? buffer = some result ∧
      result.toNat = ∑ k ∈ Finset.range f.width,
        (bitAt buffer (f.offset + k)).toNat * 2 ^ (f.width - 1 - k) ∧
      result.toNat < 2 ^ f.width ∧
      ∀ other : List UInt8, f.offset + f.width ≤ 8 * other.length →
        (∀ i, f.offset ≤ i → i < f.offset + f.width → bitAt other i = bitAt buffer i) →
        f.read? other = some result := by
  have hresult := toNat_ofNat_number hwidth buffer
  refine ⟨_, read?_eq_number hfit, hresult, ?_, fun other hother hbits => ?_⟩
  · rw [hresult]
    exact f.number_lt buffer
  · rw [read?_eq_number hother, number_congr fun i hi => hbits i hi.1 hi.2]

/-- Ten bits in two bytes, in buffers that agree on them and on nothing else. -/
theorem read?_eq_sum_ten_bits :
    (⟨3, 10⟩ : BitField).width ≤ 64 ∧ 3 + 10 ≤ 8 * [0xB6, 0x5D].length ∧
      3 + 10 ≤ 8 * [0x56, 0x5A, 0xFF].length ∧
      ∃ result : UInt64, (⟨3, 10⟩ : BitField).read? [0xB6, 0x5D] = some result ∧
        result.toNat = 0x2CB ∧ result.toNat < 2 ^ 10 ∧
        (⟨3, 10⟩ : BitField).read? [0x56, 0x5A, 0xFF] = some result := by
  obtain ⟨result, hread, hsum, hlt, hsame⟩ :=
    read?_eq_sum ⟨3, 10⟩ [0xB6, 0x5D] (by decide) (by decide)
  have hbits : ∀ i < 13, 3 ≤ i → bitAt [0x56, 0x5A, 0xFF] i = bitAt [0xB6, 0x5D] i := by decide
  refine ⟨by decide, by decide, by decide, result, hread, ?_, hlt, ?_⟩
  · rw [hsum]
    decide
  · exact hsame _ (by decide) fun i hoffset hend => hbits i hend hoffset

/-! ### Writing in place -/

/-- **Writing in place** into a field of a buffer that has it succeeds. The bits of the field are
those of the value, the most significant of its low bits first, and all other bits of the buffer
are as they were; reading gives what the field has room for. -/
theorem overwrite?_exact (f : BitField) (buffer : List UInt8) (value : UInt64)
    (hfit : f.offset + f.width ≤ 8 * buffer.length) :
    ∃ buffer', f.overwrite? buffer value = some buffer' ∧ buffer'.length = buffer.length ∧
      (∀ k < f.width,
        bitAt buffer' (f.offset + k) = value.toNat.testBit (f.width - 1 - k)) ∧
      (∀ i, i < f.offset ∨ f.offset + f.width ≤ i → bitAt buffer' i = bitAt buffer i) ∧
      ∃ result : UInt64, f.read? buffer' = some result ∧
        result.toNat = value.toNat % 2 ^ f.width := by
  obtain ⟨buffer', hwrite, hlength, hholds, hothers⟩ :=
    f.exists_overwrite?_eq_some buffer value hfit
  refine ⟨buffer', hwrite, hlength, fun k hk => ?_, fun i hi => ?_, ?_⟩
  · have hplace : f.offset + f.width - 1 - (f.offset + k) = f.width - 1 - k := by omega
    rw [hholds _ (Nat.le_add_right _ _) (Nat.add_lt_add_left hk _), hplace]
  · refine hothers i fun hcovers => ?_
    obtain ⟨hoffset, hend⟩ := hcovers
    omega
  · refine ⟨_, read?_eq_number (hlength.symm ▸ hfit), ?_⟩
    rw [number_of_holds hholds]
    exact UInt64.toNat_ofNat_of_lt' (Nat.lt_of_le_of_lt (Nat.mod_le _ _) value.toNat_lt)

/-- Ten bits across a byte border, written over ones, of a value that is too large for them. -/
theorem overwrite?_exact_ten_bits :
    3 + 10 ≤ 8 * [0xFF, 0xFF].length ∧
      ∃ buffer', (⟨3, 10⟩ : BitField).overwrite? [0xFF, 0xFF] 0xF001 = some buffer' ∧
        buffer'.length = 2 ∧ bitAt buffer' 2 = true ∧ bitAt buffer' 3 = false ∧
        bitAt buffer' 12 = true ∧ bitAt buffer' 13 = true ∧
        ∃ result : UInt64, (⟨3, 10⟩ : BitField).read? buffer' = some result ∧ result.toNat = 1 := by
  obtain ⟨buffer', hwrite, hlength, hbits, hothers, hread⟩ :=
    overwrite?_exact ⟨3, 10⟩ [0xFF, 0xFF] 0xF001 (by decide)
  refine ⟨by decide, buffer', hwrite, hlength, ?_, ?_, ?_, ?_, hread⟩
  · exact (hothers 2 (.inl (by decide))).trans (by decide)
  · exact (hbits 0 (by decide)).trans (by decide)
  · exact (hbits 9 (by decide)).trans (by decide)
  · exact (hothers 13 (.inr (by decide))).trans (by decide)

/-! ### Sequential writing -/

/-- **The field takes a byte**: it starts with the byte, and it does not go on in the next one. -/
def TakesByte (f : BitField) : Prop :=
  f.offset % 8 = 0 ∧ f.width ≤ 8

instance (f : BitField) : Decidable f.TakesByte :=
  inferInstanceAs (Decidable (_ ∧ _))

/-- All bits of the byte at `index` belong to the field. -/
def CoversByte (f : BitField) (index : ℕ) : Prop :=
  f.offset ≤ 8 * index ∧ 8 * (index + 1) ≤ f.offset + f.width

instance (f : BitField) (index : ℕ) : Decidable (f.CoversByte index) :=
  inferInstanceAs (Decidable (_ ∧ _))

/-- **What sequential writing of `value` leaves of a buffer.** A field that takes a byte leaves
nothing else in it; for all others, each bit of the bytes that they touch is accounted for. -/
structure IsWritten (f : BitField) (value : UInt64) (buffer buffer' : List UInt8) : Prop where
  /-- The buffer keeps its length. -/
  length : buffer'.length = buffer.length
  /-- The bytes that the field does not touch stay as they are. -/
  otherBytes : ∀ index, ¬f.Touches index → buffer'.getD index 0 = buffer.getD index 0
  /-- The byte that the field takes is the value, shifted up to the top of the byte. -/
  takenByte : f.TakesByte →
    buffer'.getD (f.offset / 8) 0 = UInt8.ofNat (value.toNat <<< (8 - f.width))
  /-- The bits behind the field stay as they are. -/
  bitsBehind : ¬f.TakesByte → ∀ i, f.offset + f.width ≤ i → bitAt buffer' i = bitAt buffer i
  /-- In a byte that the field covers, its bits are those of the value. -/
  coveredBits : ¬f.TakesByte → ∀ i, f.Covers i → f.CoversByte (i / 8) →
    bitAt buffer' i = value.toNat.testBit (f.offset + f.width - 1 - i)
  /-- In a byte that the field shares, the bits of the value are added to its bits. -/
  sharedBits : ¬f.TakesByte → ∀ i, f.Covers i → ¬f.CoversByte (i / 8) →
    bitAt buffer' i = (bitAt buffer i || value.toNat.testBit (f.offset + f.width - 1 - i))
  /-- A bit before the field, in its first byte, changes only to one, and only if the value is too
  large for the field. -/
  bitsBefore : ¬f.TakesByte → ∀ i, i / 8 = f.offset / 8 → i < f.offset →
    bitAt buffer' i ≠ bitAt buffer i → bitAt buffer' i = true ∧ 2 ^ f.width ≤ value.toNat

/-- **The bytes that are assigned** are those that the field covers, and the one that it takes. -/
theorem assigns_fragmentIn_iff (h : f.Touches index) :
    f.assigns (f.fragmentIn index) = true ↔ f.TakesByte ∨ f.CoversByte index := by
  obtain ⟨hoffset, hend, hwidth⟩ := h
  simp only [assigns, fitsByte, fragmentIn, TakesByte, CoversByte, Bool.or_eq_true,
    Bool.and_eq_true, beq_iff_eq, decide_eq_true_eq]
  omega

/-- All other bytes that the field touches are merged into. -/
theorem not_assigns_fragmentIn (h : f.Touches index) (htakes : ¬f.TakesByte)
    (hcovers : ¬f.CoversByte index) : f.assigns (f.fragmentIn index) = false := by
  rw [Bool.eq_false_iff, ne_eq, assigns_fragmentIn_iff h]
  rintro (h | h)
  · exact htakes h
  · exact hcovers h

/-- A field that takes its byte has nothing behind it, so its piece is the whole value. -/
theorem piece_of_takesByte (value : UInt64) (h : f.TakesByte) (hpos : 0 < f.width) :
    (f.fragmentIn (f.offset / 8)).piece value =
      UInt8.ofNat (value.toNat <<< (8 - f.width)) := by
  obtain ⟨hboundary, hbyte⟩ := h
  have htouches : f.Touches (f.offset / 8) := ⟨by omega, by omega, hpos.ne'⟩
  have hrest : (f.fragmentIn (f.offset / 8)).rest = 0 := by
    simp only [fragmentIn]
    omega
  have hshift : 8 * (f.offset / 8 + 1) - min (f.offset + f.width) (8 * (f.offset / 8 + 1)) =
      8 - f.width := by omega
  rw [Fragment.piece, hrest, Nat.shiftRight_zero, shift_fragmentIn htouches, hshift]

/-- The byte that the field takes gets its piece. -/
theorem writtenBit_of_takesByte (value : UInt64) (h : f.TakesByte) (hpos : 0 < f.width) {i : ℕ}
    (hi : i / 8 = f.offset / 8) :
    f.writtenBit buffer value i =
      (UInt8.ofNat (value.toNat <<< (8 - f.width))).toNat.testBit (7 - i % 8) := by
  have htouches : f.Touches (i / 8) := ⟨by omega, by omega, hpos.ne'⟩
  rw [writtenBit_of_assigns value htouches ((assigns_fragmentIn_iff htouches).mpr (.inl h)),
    ← testBit_piece f value htouches, hi, piece_of_takesByte value h hpos]

/-- A byte that goes on behind the field is merged into, with zeros. -/
theorem writtenBit_of_behind (value : UInt64) (h : ¬f.TakesByte) {i : ℕ}
    (hi : f.offset + f.width ≤ i) : f.writtenBit buffer value i = bitAt buffer i := by
  by_cases htouches : f.Touches (i / 8)
  · have hcovers : ¬f.CoversByte (i / 8) := by
      rintro ⟨-, hend⟩
      omega
    rw [writtenBit_of_merges value htouches (not_assigns_fragmentIn htouches h hcovers),
      decide_eq_false (Nat.not_lt.mpr hi), Bool.false_and, Bool.or_false]
  · exact writtenBit_of_not_touches value htouches

/-- **A bit before the field is changed by a value that is too large**, and by no other. -/
theorem writtenBit_of_before {value : UInt64} (h : ¬f.TakesByte) (hpos : 0 < f.width) {i : ℕ}
    (hbyte : i / 8 = f.offset / 8) (hi : i < f.offset)
    (hne : f.writtenBit buffer value i ≠ bitAt buffer i) :
    f.writtenBit buffer value i = true ∧ 2 ^ f.width ≤ value.toNat := by
  have htouches : f.Touches (i / 8) := ⟨by omega, by omega, hpos.ne'⟩
  have hcovers : ¬f.CoversByte (i / 8) := by
    rintro ⟨hoffset, -⟩
    omega
  rw [writtenBit_of_merges value htouches (not_assigns_fragmentIn htouches h hcovers),
    decide_eq_true (by omega), Bool.true_and] at hne ⊢
  -- The bit of the value that comes here is above the width of the field.
  cases hbit : value.toNat.testBit (f.offset + f.width - 1 - i) with
  | false => exact absurd (by rw [hbit, Bool.or_false]) hne
  | true =>
    refine ⟨Bool.or_true _, ?_⟩
    calc
      2 ^ f.width ≤ 2 ^ (f.offset + f.width - 1 - i) :=
        Nat.pow_le_pow_right Nat.two_pos (by omega)
      _ ≤ value.toNat := Nat.ge_two_pow_of_testBit hbit

/-- Bits that have been written sequentially are accounted for. -/
theorem isWritten_of_bits {value : UInt64} (hpos : 0 < f.width)
    (hlength : buffer'.length = buffer.length)
    (hbits : ∀ i, bitAt buffer' i = f.writtenBit buffer value i) :
    f.IsWritten value buffer buffer' where
  length := hlength
  otherBytes _ htouches := getD_eq_of_bitAt_eq fun i hi => by
    rw [hbits, writtenBit_of_not_touches value (hi ▸ htouches)]
  takenByte htakes := getD_eq_of_bitAt fun i hi => by
    rw [hbits, writtenBit_of_takesByte value htakes hpos hi]
  bitsBehind htakes i hi := by
    rw [hbits, writtenBit_of_behind value htakes hi]
  coveredBits _ i hi hcovers := by
    rw [hbits, writtenBit_of_assigns value hi.touches
      ((assigns_fragmentIn_iff hi.touches).mpr (.inr hcovers)), decide_eq_true hi.2, Bool.true_and]
  sharedBits htakes i hi hcovers := by
    rw [hbits, writtenBit_of_merges value hi.touches
      (not_assigns_fragmentIn hi.touches htakes hcovers), decide_eq_true hi.2, Bool.true_and]
  bitsBefore htakes i hbyte hi hne := by
    rw [hbits] at hne ⊢
    exact writtenBit_of_before htakes hpos hbyte hi hne

/-- **Sequential writing** into a field of a buffer that has it succeeds, and leaves what
`WireCodec.BitField.IsWritten` says. If the bits of the field were zero and the value fits into it,
reading gives the value. -/
theorem write?_isWritten (f : BitField) (buffer : List UInt8) (value : UInt64) (hpos : 0 < f.width)
    (hfit : f.offset + f.width ≤ 8 * buffer.length) :
    ∃ buffer', f.write? buffer value = some buffer' ∧ f.IsWritten value buffer buffer' ∧
      (value.toNat < 2 ^ f.width → (∀ i, f.Covers i → bitAt buffer i = false) →
        f.read? buffer' = some value) := by
  obtain ⟨buffer', hwrite, hlength, hbits⟩ := f.exists_write?_eq_some buffer value hfit
  refine ⟨buffer', hwrite, isWritten_of_bits hpos hlength hbits, fun hvalue hzero => ?_⟩
  have hholds : f.Holds buffer' value.toNat := fun i hoffset hend => by
    rw [hbits, writtenBit_of_zero value ⟨hoffset, hend⟩ (hzero i ⟨hoffset, hend⟩)]
  rw [read?_eq_some (hlength.symm ▸ hfit) hvalue hholds, UInt64.ofNat_toNat]

/-- Fourteen bits in three bytes, the first and the last of which are shared. -/
theorem write?_isWritten_fourteen_bits :
    let f : BitField := ⟨5, 14⟩
    let buffer : List UInt8 := [0xA0, 0, 0x07]
    0 < f.width ∧ f.offset + f.width ≤ 8 * buffer.length ∧
      (0x2ABC : UInt64).toNat < 2 ^ f.width ∧ (∀ i, f.Covers i → bitAt buffer i = false) ∧
      ∃ buffer', f.write? buffer 0x2ABC = some buffer' ∧ f.IsWritten 0x2ABC buffer buffer' ∧
        f.read? buffer' = some 0x2ABC := by
  intro f buffer
  have hpos : 0 < f.width := by decide
  have hfit : f.offset + f.width ≤ 8 * buffer.length := by decide
  have hvalue : (0x2ABC : UInt64).toNat < 2 ^ f.width := by decide
  have hzero : ∀ i, f.Covers i → bitAt buffer i = false := by
    have hbits : ∀ i < f.offset + f.width, f.offset ≤ i → bitAt buffer i = false := by decide
    rintro i ⟨hoffset, hend⟩
    exact hbits i hend hoffset
  obtain ⟨buffer', hwrite, hwritten, hread⟩ := write?_isWritten f buffer 0x2ABC hpos hfit
  exact ⟨hpos, hfit, hvalue, hzero, buffer', hwrite, hwritten, hread hvalue hzero⟩

/-- A value that is too large gets into the bits before the field. -/
example : (⟨4, 4⟩ : BitField).write? [0x80, 0xFF] 0x13 = some [0x93, 0xFF] := by
  cbv

end WireCodec.BitField
