import Mathlib.Data.List.GetD
import WireCodec.Proofs.BitField.Effects
import WireCodec.Proofs.Field.Requests

/-!
# Bit fields of whole bytes

A bit field that starts with a byte and ends with one is an integer of whole bytes, the most
significant one first. Both ways of writing bits, which treat shared bytes differently, and the
writer of integers are then the same thing: they put the same bytes into their place
(`WireCodec.BitField.write?_wholeBytes`, `WireCodec.BitField.overwrite?_wholeBytes`). Reading bits
is reading an integer, also of a buffer that ends too early (`WireCodec.BitField.read?_wholeBytes`).

What ties them together is the view of a buffer as bits: bit `i` of an integer of `count` bytes, the
most significant first, is bit `8 * count - 1 - i` of the number
(`WireCodec.bitAt_encode_big`).
-/

namespace WireCodec

/-! ### Bits of bytes one after another -/

theorem bitAt_append (front behind : List UInt8) (i : ℕ) :
    bitAt (front ++ behind) i =
      if i < 8 * front.length then bitAt front i else bitAt behind (i - 8 * front.length) := by
  unfold bitAt
  by_cases hi : i < 8 * front.length
  · rw [if_pos hi, List.getD_append _ _ _ _ (by omega)]
  · have hbyte : (i - 8 * front.length) / 8 = i / 8 - front.length := by omega
    have hplace : (i - 8 * front.length) % 8 = i % 8 := by omega
    rw [if_neg hi, List.getD_append_right _ _ _ _ (by omega), hbyte, hplace]

/-- The last of the bytes is the least significant one. -/
theorem encode_big_succ (count value : ℕ) :
    ByteOrder.big.encode (count + 1) value =
      ByteOrder.big.encode count (value / 256) ++ [UInt8.ofNat value] := by
  simp [ByteOrder.encode]

/-- **The bits of an integer**, with the most significant byte first, are those of the number, from
the most significant one on. -/
theorem bitAt_encode_big {count i : ℕ} (value : ℕ) (h : i < 8 * count) :
    bitAt (ByteOrder.big.encode count value) i = value.testBit (8 * count - 1 - i) := by
  induction count generalizing value with
  | zero => omega
  | succ count ih =>
    rw [encode_big_succ, bitAt_append, ByteOrder.length_encode]
    by_cases hi : i < 8 * count
    · have hplace : 8 * (count + 1) - 1 - i = 8 * count - 1 - i + 8 := by omega
      rw [if_pos hi, ih _ hi, hplace, Nat.testBit_add]
    · have hbyte : (i - 8 * count) / 8 = 0 := by omega
      have hplace : 7 - (i - 8 * count) % 8 = 8 * (count + 1) - 1 - i := by omega
      have hbit : 8 * (count + 1) - 1 - i < 8 := by omega
      rw [if_neg hi, bitAt, hbyte, hplace, List.getD_cons_zero, UInt8.toNat_ofNat',
        Nat.testBit_mod_two_pow, decide_eq_true hbit, Bool.true_and]

/-! ### Bytes in their place -/

/-- **The buffer with `bytes` in the place of those from byte `k` on.** -/
def replaceBytes (buffer : List UInt8) (k : ℕ) (bytes : List UInt8) : List UInt8 :=
  buffer.take k ++ (bytes ++ buffer.drop (k + bytes.length))

section ReplaceBytes

variable {buffer bytes : List UInt8} {k : ℕ}

theorem length_replaceBytes (h : k + bytes.length ≤ buffer.length) :
    (replaceBytes buffer k bytes).length = buffer.length := by
  simp only [replaceBytes, List.length_append, List.length_take, List.length_drop]
  omega

theorem replaceBytes_self (h : k + bytes.length ≤ buffer.length)
    (hbytes : (buffer.drop k).take bytes.length = bytes) :
    replaceBytes buffer k bytes = buffer := by
  have hrest : bytes ++ buffer.drop (k + bytes.length) = buffer.drop k := by
    conv_lhs => rw [← hbytes]
    rw [List.length_take, List.length_drop, Nat.min_eq_left (by omega), ← List.drop_drop,
      List.take_append_drop]
  rw [replaceBytes, hrest, List.take_append_drop]

/-- The bits of the new bytes are in their place, and all others are as they were. -/
theorem bitAt_replaceBytes (h : k + bytes.length ≤ buffer.length) (i : ℕ) :
    bitAt (replaceBytes buffer k bytes) i =
      if 8 * k ≤ i ∧ i < 8 * k + 8 * bytes.length then bitAt bytes (i - 8 * k)
      else bitAt buffer i := by
  have hfront : (buffer.take k).length = k := by
    rw [List.length_take]
    omega
  rw [replaceBytes, bitAt_append, bitAt_append, hfront]
  by_cases hbefore : i < 8 * k
  · rw [if_pos hbefore, if_neg (by omega)]
    conv_rhs => rw [← List.take_append_drop k buffer, bitAt_append, hfront, if_pos hbefore]
  rw [if_neg hbefore]
  by_cases hin : i - 8 * k < 8 * bytes.length
  · rw [if_pos hin, if_pos (by omega)]
  · have hplace : i - 8 * k - 8 * bytes.length = i - 8 * (k + bytes.length) := by omega
    have hlength : (buffer.take (k + bytes.length)).length = k + bytes.length := by
      rw [List.length_take]
      omega
    rw [if_neg hin, if_neg (by omega), hplace]
    conv_rhs =>
      rw [← List.take_append_drop (k + bytes.length) buffer, bitAt_append, hlength,
        if_neg (by omega)]

end ReplaceBytes

namespace BitField

/-! ### Writing -/

section WholeBytes

variable {buffer buffer' : List UInt8} {k count : ℕ}

/-- A buffer with the bits of a value in whole bytes, and with its old bits elsewhere, has the bytes
of the value in their place. -/
theorem eq_replaceBytes_of_bits (value : ℕ) (hfit : k + count ≤ buffer.length)
    (hlength : buffer'.length = buffer.length)
    (hbits : ∀ i, bitAt buffer' i =
      if (⟨8 * k, 8 * count⟩ : BitField).Covers i then value.testBit (8 * k + 8 * count - 1 - i)
      else bitAt buffer i) :
    buffer' = replaceBytes buffer k (ByteOrder.big.encode count value) := by
  have hfit' : k + (ByteOrder.big.encode count value).length ≤ buffer.length := by
    rwa [ByteOrder.length_encode]
  refine eq_of_bitAt_eq (hlength.trans (length_replaceBytes hfit').symm) fun i => ?_
  rw [hbits, bitAt_replaceBytes hfit', ByteOrder.length_encode]
  by_cases hi : 8 * k ≤ i ∧ i < 8 * k + 8 * count
  · have hcovers : (⟨8 * k, 8 * count⟩ : BitField).Covers i := hi
    have hplace : 8 * count - 1 - (i - 8 * k) = 8 * k + 8 * count - 1 - i := by omega
    rw [if_pos hcovers, if_pos hi, bitAt_encode_big value (by omega), hplace]
  · have hcovers : ¬(⟨8 * k, 8 * count⟩ : BitField).Covers i := hi
    rw [if_neg hcovers, if_neg hi]

/-- **Sequential writing** assigns all bytes of such a field. -/
theorem write?_wholeBytes (value : UInt64) (hfit : k + count ≤ buffer.length) :
    (⟨8 * k, 8 * count⟩ : BitField).write? buffer value =
      some (replaceBytes buffer k (ByteOrder.big.encode count value.toNat)) := by
  obtain ⟨buffer', hwrite, hlength, hbits⟩ :=
    exists_write?_eq_some ⟨8 * k, 8 * count⟩ buffer value (by simp only; omega)
  rw [hwrite, eq_replaceBytes_of_bits value.toNat hfit hlength fun i => ?_]
  rw [hbits]
  by_cases hcovers : (⟨8 * k, 8 * count⟩ : BitField).Covers i
  · have hbyte : (⟨8 * k, 8 * count⟩ : BitField).CoversByte (i / 8) := by
      obtain ⟨hoffset, hend⟩ := hcovers
      simp only at hoffset hend
      simp only [CoversByte]
      omega
    rw [writtenBit_of_assigns value hcovers.touches
      ((assigns_fragmentIn_iff hcovers.touches).mpr (.inr hbyte)), if_pos hcovers,
      decide_eq_true hcovers.2, Bool.true_and]
  · have htouches : ¬(⟨8 * k, 8 * count⟩ : BitField).Touches (i / 8) := by
      rintro ⟨hoffset, hend, -⟩
      simp only at hoffset hend
      refine hcovers ⟨?_, ?_⟩ <;> simp only <;> omega
    rw [writtenBit_of_not_touches value htouches, if_neg hcovers]

/-- **Writing in place** masks nothing out of the bytes of such a field. -/
theorem overwrite?_wholeBytes (value : UInt64) (hfit : k + count ≤ buffer.length) :
    (⟨8 * k, 8 * count⟩ : BitField).overwrite? buffer value =
      some (replaceBytes buffer k (ByteOrder.big.encode count value.toNat)) := by
  obtain ⟨buffer', hwrite, hlength, hholds, hothers⟩ :=
    exists_overwrite?_eq_some ⟨8 * k, 8 * count⟩ buffer value (by simp only; omega)
  rw [hwrite, eq_replaceBytes_of_bits value.toNat hfit hlength fun i => ?_]
  by_cases hcovers : (⟨8 * k, 8 * count⟩ : BitField).Covers i
  · rw [if_pos hcovers, hholds i hcovers.1 hcovers.2]
  · rw [if_neg hcovers, hothers i hcovers]

/-! ### Reading -/

/-- Reading stops at a fragment in a byte that the buffer does not have. -/
theorem foldlM_extract_eq_none (f : BitField) (buffer : List UInt8) (start : ℕ)
    (hwidth : f.width ≠ 0) (hshort : 8 * buffer.length < f.offset + f.width) :
    f.fragments.foldlM (m := Option)
      (fun value g => buffer[g.index]?.map fun byte => value <<< g.width ||| g.extract byte)
      start = none := by
  induction f using fragments_induction generalizing start with
  | empty offset => exact absurd rfl hwidth
  | first f hw ih =>
    rw [fragments_eq_cons hw, List.foldlM_cons]
    cases hbyte : buffer[(f.fragmentIn (f.offset / 8)).index]? with
    | none => rfl
    | some byte =>
      -- The first byte is there, so that the field goes on behind it.
      have hindex : f.offset / 8 < buffer.length := (List.getElem?_eq_some_iff.mp hbyte).1
      exact ih _ (by simp only; omega) (by simp only; omega)

/-- **A field that is not in the buffer is not read.** -/
theorem read?_eq_none {f : BitField} {buffer : List UInt8} (hwidth : f.width ≠ 0)
    (hshort : 8 * buffer.length < f.offset + f.width) : f.read? buffer = none := by
  rw [read?, f.foldlM_extract_eq_none buffer 0 hwidth hshort]
  rfl

/-- The number in whole bytes is what the bytes spell. -/
theorem number_replaceBytes (bytes : List UInt8) (hfit : k + bytes.length ≤ buffer.length) :
    (⟨8 * k, 8 * bytes.length⟩ : BitField).number (replaceBytes buffer k bytes) =
      ByteOrder.big.decode bytes := by
  have hlt := ByteOrder.big.decode_lt bytes
  have hholds : (⟨8 * k, 8 * bytes.length⟩ : BitField).Holds (replaceBytes buffer k bytes)
      (ByteOrder.big.decode bytes) := by
    intro i hoffset hend
    simp only at hoffset hend ⊢
    have hplace : 8 * bytes.length - 1 - (i - 8 * k) = 8 * k + 8 * bytes.length - 1 - i := by omega
    rw [bitAt_replaceBytes hfit, if_pos ⟨hoffset, hend⟩, ← hplace,
      ← bitAt_encode_big _ (by omega), ByteOrder.encode_decode]
  rw [number_of_holds hholds]
  exact Nat.mod_eq_of_lt (two_pow_eight_mul bytes.length ▸ hlt)

/-- **Reading** such a field is reading the integer of its bytes, and fails like it where bytes are
missing. -/
theorem read?_wholeBytes (n : ByteCount) (k : ℕ) (buffer : List UInt8) :
    (⟨8 * k, 8 * n.count⟩ : BitField).read? buffer =
      ((FieldReader.unsigned .big n.count).run.run ⟨buffer, k⟩).1.toOption := by
  have hpos := n.one_le
  have hreads := ReadRequest.reads_unsigned .big n.count
  have hfault : (FieldShape.integer n.count).fault? = none :=
    (FieldShape.fault?_integer_eq_none_iff n.count).mpr ⟨n.one_le, n.le_eight⟩
  by_cases hfit : k + n.count ≤ buffer.length
  · have hlength : ((buffer.drop k).take n.count).length = n.count := by
      rw [List.length_take, List.length_drop]
      omega
    have hfit' : k + ((buffer.drop k).take n.count).length ≤ buffer.length := by rwa [hlength]
    have hnumber : (⟨8 * k, 8 * n.count⟩ : BitField).number buffer =
        ByteOrder.big.decode ((buffer.drop k).take n.count) := by
      rw [← number_replaceBytes _ hfit', replaceBytes_self hfit' (by rw [hlength]), hlength]
    rw [hreads.run_of_fits hfault hfit, read?_eq_number (by simp only; omega), hnumber]
    rfl
  · rw [hreads.run_of_short hfault (Nat.not_le.mp hfit),
      read?_eq_none (by simp only; omega) (by simp only; omega)]
    rfl

end WholeBytes

/-- **Bit fields of whole bytes are integers**, the most significant byte first, in the bytes from
`k` on. Both ways of writing bits put there what the writer of integers appends, which is the same
reversed if the least significant byte comes first, and change no other byte. Reading bits gives
what the reader of integers gives there, for every buffer. -/
theorem wholeBytes_agree (n : ByteCount) (k : ℕ) (value : UInt64) :
    ∃ bytes : List UInt8, bytes.length = n.count ∧
      (∀ output,
        FieldWriter.unsigned .big output value n.count = .ok (output ++ bytes) ∧
        FieldWriter.unsigned .little output value n.count = .ok (output ++ bytes.reverse)) ∧
      (∀ buffer : List UInt8, k + n.count ≤ buffer.length →
        (⟨8 * k, 8 * n.count⟩ : BitField).write? buffer value =
            some (buffer.take k ++ (bytes ++ buffer.drop (k + n.count))) ∧
        (⟨8 * k, 8 * n.count⟩ : BitField).overwrite? buffer value =
            some (buffer.take k ++ (bytes ++ buffer.drop (k + n.count)))) ∧
      ∀ buffer : List UInt8, (⟨8 * k, 8 * n.count⟩ : BitField).read? buffer =
        ((FieldReader.unsigned .big n.count).run.run ⟨buffer, k⟩).1.toOption := by
  refine ⟨ByteOrder.big.encode n.count value.toNat, ByteOrder.length_encode _ _ _,
    fun output => ⟨?_, ?_⟩, fun buffer hfit => ⟨?_, ?_⟩, read?_wholeBytes n k⟩
  · rw [FieldWriter.unsigned, checkByteCount_count]
    rfl
  · rw [FieldWriter.unsigned, checkByteCount_count, ByteOrder.encode_little_eq_reverse]
    rfl
  · rw [write?_wholeBytes value hfit, replaceBytes, ByteOrder.length_encode]
  · rw [overwrite?_wholeBytes value hfit, replaceBytes, ByteOrder.length_encode]

/-- Three bytes behind one, of a value that is too large for them. -/
theorem wholeBytes_agree_three_bytes :
    ∃ bytes : List UInt8, bytes.length = 3 ∧
      FieldWriter.unsigned .big [7] 0xAABBCCDD 3 = .ok ([7] ++ bytes) ∧
      1 + 3 ≤ [0xFF, 0xFF, 0xFF, 0xFF, 0xFF].length ∧
      (⟨8, 24⟩ : BitField).write? [0xFF, 0xFF, 0xFF, 0xFF, 0xFF] 0xAABBCCDD =
        some ([0xFF] ++ (bytes ++ [0xFF])) ∧
      (⟨8, 24⟩ : BitField).overwrite? [0xFF, 0xFF, 0xFF, 0xFF, 0xFF] 0xAABBCCDD =
        some ([0xFF] ++ (bytes ++ [0xFF])) := by
  obtain ⟨bytes, hlength, happends, hwrites, -⟩ :=
    wholeBytes_agree ⟨3, by decide, by decide⟩ 1 0xAABBCCDD
  obtain ⟨hwrite, hoverwrite⟩ := hwrites [0xFF, 0xFF, 0xFF, 0xFF, 0xFF] (by decide)
  exact ⟨bytes, hlength, (happends [7]).1, by decide, hwrite, hoverwrite⟩

end BitField

end WireCodec
