import WireCodec.BitField

/-!
# The bits of a buffer

The view of a buffer that statements about bit fields are made in: `WireCodec.bitAt` is one bit of
it, counted from the most significant bit of the first byte. What the operations on a field do is
said byte by byte first, and then bit by bit.

* The fragment of a field in a byte is known in closed form (`WireCodec.BitField.fragmentIn`), and
  changing the bytes of all fragments changes each byte that the field touches by its fragment and
  no other (`WireCodec.BitField.changeFragments?_fragments`).
* Whatever the fragment, the bit of its piece at bit `i` of the buffer is the bit of the value that
  belongs there (`WireCodec.BitField.testBit_piece`): the places of the buffer and of the value run
  against each other, and their sum is fixed by the end of the field.
* Sequential writing has a bit for every place of the buffer (`WireCodec.BitField.writtenBit`).
* Writing in place sets the bits of the field and no others
  (`WireCodec.BitField.exists_overwrite?_eq_some`).
* Reading gives the number with the bits of the field (`WireCodec.BitField.read?_eq_some`).
-/

namespace WireCodec

/-- **Bit `i` of a buffer**; bit `0` is the most significant bit of the first byte. Behind the end
of the buffer all bits are zero. -/
def bitAt (buffer : List UInt8) (i : Nat) : Bool :=
  (buffer.getD (i / 8) 0).toNat.testBit (7 - i % 8)

/-- **A byte of a buffer is known by its bits.** -/
theorem getD_eq_of_bitAt {buffer : List UInt8} {index : Nat} {byte : UInt8}
    (h : ∀ i, i / 8 = index → bitAt buffer i = byte.toNat.testBit (7 - i % 8)) :
    buffer.getD index 0 = byte := by
  refine UInt8.toNat_inj.mp (Nat.eq_of_testBit_eq fun j => ?_)
  by_cases hj : j < 8
  · have hbyte : (8 * index + (7 - j)) / 8 = index := by omega
    have hplace : 7 - (8 * index + (7 - j)) % 8 = j := by omega
    simpa only [bitAt, hbyte, hplace] using h (8 * index + (7 - j)) hbyte
  · have hzero : ∀ byte : UInt8, byte.toNat.testBit j = false := fun byte =>
      Nat.testBit_lt_two_pow (Nat.lt_of_lt_of_le byte.toNat_lt
        (Nat.pow_le_pow_right (by decide) (Nat.not_lt.mp hj)))
    rw [hzero, hzero]

/-- A byte with the same bits as another one is equal to it. -/
theorem getD_eq_of_bitAt_eq {buffer buffer' : List UInt8} {index : Nat}
    (h : ∀ i, i / 8 = index → bitAt buffer' i = bitAt buffer i) :
    buffer'.getD index 0 = buffer.getD index 0 :=
  getD_eq_of_bitAt fun i hi => by rw [h i hi, bitAt, hi]

/-- **Buffers with the same bits are equal.** -/
theorem eq_of_bitAt_eq {buffer buffer' : List UInt8} (hlength : buffer.length = buffer'.length)
    (hbits : ∀ i, bitAt buffer i = bitAt buffer' i) : buffer = buffer' := by
  refine List.ext_getElem hlength fun k hk hk' => ?_
  have hbyte : buffer.getD k 0 = buffer'.getD k 0 := getD_eq_of_bitAt_eq fun i _ => hbits i
  simpa only [List.getD_eq_getElem?_getD, List.getElem?_eq_getElem hk,
    List.getElem?_eq_getElem hk', Option.getD_some] using hbyte

/-- In a buffer of zeros all bits are zero. -/
theorem bitAt_eq_false_of_zeros {buffer : List UInt8} (h : ∀ byte ∈ buffer, byte = 0) (i : Nat) :
    bitAt buffer i = false := by
  have hbyte : buffer.getD (i / 8) 0 = 0 := by
    rw [List.getD_eq_getElem?_getD]
    cases hget : buffer[i / 8]? with
    | none => rfl
    | some byte => exact h byte (List.mem_of_getElem? hget)
  rw [bitAt, hbyte]
  exact Nat.zero_testBit _

namespace BitField

/-- **The bits of a field are those of a number**, the most significant of its `width` low bits
first. -/
def Holds (f : BitField) (buffer : List UInt8) (value : Nat) : Prop :=
  ∀ i, f.offset ≤ i → i < f.offset + f.width →
    bitAt buffer i = value.testBit (f.offset + f.width - 1 - i)

/-! ### The fragment in a byte -/

/-- The field touches the byte at `index`. -/
def Touches (f : BitField) (index : Nat) : Prop :=
  f.offset < 8 * (index + 1) ∧ 8 * index < f.offset + f.width ∧ f.width ≠ 0

instance (f : BitField) (index : Nat) : Decidable (f.Touches index) :=
  inferInstanceAs (Decidable (_ ∧ _ ∧ _))

/-- Bit `i` of the buffer belongs to the field. -/
def Covers (f : BitField) (i : Nat) : Prop :=
  f.offset ≤ i ∧ i < f.offset + f.width

instance (f : BitField) (i : Nat) : Decidable (f.Covers i) :=
  inferInstanceAs (Decidable (_ ∧ _))

/-- A field touches the bytes of its bits. -/
theorem Covers.touches {f : BitField} {i : Nat} (h : f.Covers i) : f.Touches (i / 8) := by
  obtain ⟨hoffset, hend⟩ := h
  simp only [Touches]
  omega

/-- **The fragment of a field in the byte at `index`**, if the field touches that byte. -/
def fragmentIn (f : BitField) (index : Nat) : Fragment where
  index := index
  lead := f.offset - 8 * index
  width := min (f.offset + f.width) (8 * (index + 1)) - max f.offset (8 * index)
  rest := f.offset + f.width - 8 * (index + 1)

/-- The first fragment, and the field that is left behind it. -/
theorem fragments_eq_cons {f : BitField} (h : f.width ≠ 0) :
    f.fragments = f.fragmentIn (f.offset / 8) ::
      (⟨f.offset + min f.width (8 - f.offset % 8),
        f.width - min f.width (8 - f.offset % 8)⟩ : BitField).fragments := by
  have hfirst : (⟨f.offset / 8, f.offset % 8, min f.width (8 - f.offset % 8),
      f.width - min f.width (8 - f.offset % 8)⟩ : Fragment) = f.fragmentIn (f.offset / 8) := by
    simp only [fragmentIn, Fragment.mk.injEq, true_and]
    omega
  rw [fragments, fragmentsFrom_of_ne_zero f.offset h, hfirst]
  rfl

/-- **An induction over the fragments of a field**: an empty field, or one that is left when the
first fragment is taken off. -/
theorem fragments_induction {motive : BitField → Prop}
    (empty : ∀ offset, motive ⟨offset, 0⟩)
    (first : ∀ f : BitField, f.width ≠ 0 →
      motive ⟨f.offset + min f.width (8 - f.offset % 8),
        f.width - min f.width (8 - f.offset % 8)⟩ → motive f) (f : BitField) : motive f := by
  obtain ⟨offset, width⟩ := f
  induction width using Nat.strongRecOn generalizing offset with
  | ind width ih =>
    by_cases h : width = 0
    · rw [h]
      exact empty offset
    · exact first ⟨offset, width⟩ h (ih _ (by simp only; omega) _)

/-- Behind the first byte, a field is touched like the field that is left. -/
theorem touches_rest_iff {f : BitField} (index : Nat) :
    (⟨f.offset + min f.width (8 - f.offset % 8),
      f.width - min f.width (8 - f.offset % 8)⟩ : BitField).Touches index ↔
      f.Touches index ∧ index ≠ f.offset / 8 := by
  simp only [Touches]
  omega

/-- Behind the first byte, the fragments are those of the field that is left. -/
theorem fragmentIn_rest {f : BitField} {index : Nat} (h : f.Touches index)
    (hne : index ≠ f.offset / 8) :
    (⟨f.offset + min f.width (8 - f.offset % 8),
      f.width - min f.width (8 - f.offset % 8)⟩ : BitField).fragmentIn index =
      f.fragmentIn index := by
  obtain ⟨hoffset, hend, -⟩ := h
  -- Both fields end at the same bit, and neither starts in the byte or behind it.
  have hsum : f.offset + min f.width (8 - f.offset % 8) +
      (f.width - min f.width (8 - f.offset % 8)) = f.offset + f.width := by omega
  have hstart : f.offset ≤ 8 * index := by omega
  have hrest : f.offset + min f.width (8 - f.offset % 8) ≤ 8 * index := by omega
  simp only [fragmentIn, hsum, Nat.sub_eq_zero_of_le hstart, Nat.sub_eq_zero_of_le hrest,
    Nat.max_eq_right hstart, Nat.max_eq_right hrest]

/-- The fragments of a field are those in the bytes that it touches. -/
theorem exists_of_mem_fragments (f : BitField) {g : Fragment} (hg : g ∈ f.fragments) :
    ∃ index, f.Touches index ∧ g = f.fragmentIn index := by
  induction f using fragments_induction with
  | empty offset => simp [fragments] at hg
  | first f hw ih =>
    rw [fragments_eq_cons hw] at hg
    rcases List.mem_cons.mp hg with rfl | hg
    · exact ⟨f.offset / 8, by simp only [Touches]; omega, rfl⟩
    · obtain ⟨index, htouches, rfl⟩ := ih hg
      obtain ⟨htouches', hne⟩ := (touches_rest_iff index).mp htouches
      exact ⟨index, htouches', fragmentIn_rest htouches' hne⟩

/-- Below a fragment there is what the field leaves of the byte behind its end. -/
theorem shift_fragmentIn {f : BitField} {index : Nat} (h : f.Touches index) :
    (f.fragmentIn index).shift =
      8 * (index + 1) - min (f.offset + f.width) (8 * (index + 1)) := by
  obtain ⟨hoffset, hend, -⟩ := h
  simp only [Fragment.shift, fragmentIn]
  omega

theorem fragment_bounds {f : BitField} {g : Fragment} (hg : g ∈ f.fragments) :
    g.rest < f.width ∧ g.shift < 8 ∧ 0 < g.width ∧ g.lead + g.width ≤ 8 := by
  obtain ⟨index, ⟨hoffset, hend, hwidth⟩, rfl⟩ := exists_of_mem_fragments f hg
  simp only [fragmentIn, Fragment.shift]
  omega

/-- Behind the first fragment, the fragments start with their bytes. -/
theorem lead_eq_zero_of_mem_rest {f : BitField} {g : Fragment}
    (hg : g ∈ (⟨f.offset + min f.width (8 - f.offset % 8),
      f.width - min f.width (8 - f.offset % 8)⟩ : BitField).fragments) : g.lead = 0 := by
  obtain ⟨index, htouches, rfl⟩ := exists_of_mem_fragments _ hg
  simp only [Touches] at htouches
  simp only [fragmentIn]
  omega

/-! ### Changing the bytes of a field -/

/-- The buffer with the byte of every fragment changed. -/
def changeFragments? (change : Fragment → UInt8 → UInt8) (gs : List Fragment)
    (buffer : List UInt8) : Option (List UInt8) :=
  gs.foldlM (fun buf g => changeByte? buf g.index (change g)) buffer

theorem write?_eq (f : BitField) (buffer : List UInt8) (value : UInt64) :
    f.write? buffer value = changeFragments?
      (fun g old => if f.assigns g then g.piece value else old ||| g.piece value) f.fragments
      buffer := rfl

theorem changeByte?_of_lt {buffer : List UInt8} {index : Nat} (h : index < buffer.length)
    (change : UInt8 → UInt8) :
    changeByte? buffer index change = some (buffer.modify index change) := if_pos h

theorem getD_modify {buffer : List UInt8} {index : Nat} (h : index < buffer.length)
    (change : UInt8 → UInt8) (k : Nat) :
    (buffer.modify index change).getD k 0 =
      if k = index then change (buffer.getD k 0) else buffer.getD k 0 := by
  rw [List.getD_eq_getElem?_getD, List.getD_eq_getElem?_getD, List.getElem?_modify]
  by_cases hk : k = index
  · subst hk
    simp [List.getElem?_eq_getElem h]
  · simp [hk, Ne.symm hk]

/-- **Changing the fragments of a field that the buffer holds** changes each byte that the field
touches, as its fragment says, and no other byte. -/
theorem changeFragments?_fragments (change : Fragment → UInt8 → UInt8) (f : BitField)
    (buffer : List UInt8) (h : f.offset + f.width ≤ 8 * buffer.length) :
    ∃ buffer', changeFragments? change f.fragments buffer = some buffer' ∧
      buffer'.length = buffer.length ∧
      ∀ k, buffer'.getD k 0 =
        if f.Touches k then change (f.fragmentIn k) (buffer.getD k 0) else buffer.getD k 0 := by
  induction f using fragments_induction generalizing buffer with
  | empty offset =>
    refine ⟨buffer, by simp [changeFragments?, fragments], rfl, fun k => ?_⟩
    rw [if_neg fun ht => ht.2.2 rfl]
  | first f hw ih =>
    have hindex : f.offset / 8 < buffer.length := by omega
    obtain ⟨buffer', hchange, hlength, hbytes⟩ :=
      ih (buffer.modify (f.offset / 8) (change (f.fragmentIn (f.offset / 8))))
        (by simp only [List.length_modify]; omega)
    refine ⟨buffer', ?_, by rw [hlength, List.length_modify], fun k => ?_⟩
    · rw [fragments_eq_cons hw, changeFragments?, List.foldlM_cons,
        changeByte?_of_lt (show (f.fragmentIn (f.offset / 8)).index < buffer.length from hindex)]
      exact hchange
    · rw [hbytes k, getD_modify hindex]
      by_cases hk : k = f.offset / 8
      · have hfirst : f.Touches k := by
          simp only [Touches]
          omega
        rw [if_neg fun ht => ((touches_rest_iff k).mp ht).2 hk, if_pos hk, if_pos hfirst, hk]
      · rw [if_neg hk]
        by_cases ht : f.Touches k
        · rw [if_pos ((touches_rest_iff k).mpr ⟨ht, hk⟩), if_pos ht, fragmentIn_rest ht hk]
        · rw [if_neg fun hc => ht ((touches_rest_iff k).mp hc).1, if_neg ht]

/-! ### The piece of a fragment -/

/-- **The bit of a fragment's piece at bit `i` of the buffer** is the bit of the value that belongs
there, whatever the fragment; behind the field there are zeros. Bits of the value above the width
of the field stand before it. -/
theorem testBit_piece (f : BitField) (value : UInt64) {i : Nat} (h : f.Touches (i / 8)) :
    ((f.fragmentIn (i / 8)).piece value).toNat.testBit (7 - i % 8) =
      (decide (i < f.offset + f.width) &&
        value.toNat.testBit (f.offset + f.width - 1 - i)) := by
  obtain ⟨hoffset, hend, hwidth⟩ := h
  rw [Fragment.piece, UInt8.toNat_ofNat', Nat.testBit_mod_two_pow, Nat.testBit_shiftLeft,
    Nat.testBit_shiftRight]
  rw [shift_fragmentIn ⟨hoffset, hend, hwidth⟩]
  by_cases hi : i < f.offset + f.width
  · have hplace : f.offset + f.width - 8 * (i / 8 + 1) + (7 - i % 8 -
        (8 * (i / 8 + 1) - min (f.offset + f.width) (8 * (i / 8 + 1)))) =
        f.offset + f.width - 1 - i := by omega
    have hbelow : 7 - i % 8 < 8 := by omega
    have habove : 8 * (i / 8 + 1) - min (f.offset + f.width) (8 * (i / 8 + 1)) ≤ 7 - i % 8 := by
      omega
    simp only [fragmentIn, hplace, hi, hbelow, habove, decide_true, Bool.true_and]
  · have habove : ¬8 * (i / 8 + 1) - min (f.offset + f.width) (8 * (i / 8 + 1)) ≤ 7 - i % 8 := by
      omega
    simp only [hi, habove, decide_false, Bool.false_and, Bool.and_false]

/-! ### Sequential writing -/

/-- A byte is assigned only if no bits of it stand before the field. -/
theorem offset_le_of_assigns {f : BitField} {index : Nat}
    (h : f.assigns (f.fragmentIn index) = true) : f.offset ≤ 8 * index := by
  simp only [assigns, fragmentIn, Bool.or_eq_true, Bool.and_eq_true, beq_iff_eq] at h
  omega

/-- **Bit `i` of a buffer when a value has been written sequentially**: in the bytes that the field
touches, the bit of the value, merged with the old bit unless the byte is assigned; elsewhere the
old bit. -/
def writtenBit (f : BitField) (buffer : List UInt8) (value : UInt64) (i : Nat) : Bool :=
  if f.Touches (i / 8) then
    (!f.assigns (f.fragmentIn (i / 8)) && bitAt buffer i) ||
      (decide (i < f.offset + f.width) && value.toNat.testBit (f.offset + f.width - 1 - i))
  else bitAt buffer i

section WrittenBit

variable {f : BitField} {buffer : List UInt8} {i : Nat} (value : UInt64)

theorem writtenBit_of_not_touches (h : ¬f.Touches (i / 8)) :
    f.writtenBit buffer value i = bitAt buffer i :=
  if_neg h

theorem writtenBit_of_assigns (h : f.Touches (i / 8))
    (hassigns : f.assigns (f.fragmentIn (i / 8)) = true) :
    f.writtenBit buffer value i = (decide (i < f.offset + f.width) &&
      value.toNat.testBit (f.offset + f.width - 1 - i)) := by
  rw [writtenBit, if_pos h, hassigns, Bool.not_true, Bool.false_and, Bool.false_or]

theorem writtenBit_of_merges (h : f.Touches (i / 8))
    (hmerges : f.assigns (f.fragmentIn (i / 8)) = false) :
    f.writtenBit buffer value i = (bitAt buffer i || (decide (i < f.offset + f.width) &&
      value.toNat.testBit (f.offset + f.width - 1 - i))) := by
  rw [writtenBit, if_pos h, hmerges, Bool.not_false, Bool.true_and]

/-- Where the field has a zero it gets the bit of the value, whether the byte is assigned or not. -/
theorem writtenBit_of_zero (h : f.Covers i) (hzero : bitAt buffer i = false) :
    f.writtenBit buffer value i = value.toNat.testBit (f.offset + f.width - 1 - i) := by
  rw [writtenBit, if_pos h.touches, hzero, decide_eq_true h.2, Bool.and_false, Bool.false_or,
    Bool.true_and]

end WrittenBit

/-- **Sequential writing** leaves a buffer with these bits. -/
theorem exists_write?_eq_some (f : BitField) (buffer : List UInt8) (value : UInt64)
    (h : f.offset + f.width ≤ 8 * buffer.length) :
    ∃ buffer', f.write? buffer value = some buffer' ∧ buffer'.length = buffer.length ∧
      ∀ i, bitAt buffer' i = f.writtenBit buffer value i := by
  obtain ⟨buffer', hwrite, hlength, hbytes⟩ := changeFragments?_fragments
    (fun g old => if f.assigns g then g.piece value else old ||| g.piece value) f buffer h
  refine ⟨buffer', by rw [write?_eq, hwrite], hlength, fun i => ?_⟩
  rw [bitAt, hbytes]
  by_cases ht : f.Touches (i / 8)
  · rw [if_pos ht]
    cases hassigns : f.assigns (f.fragmentIn (i / 8)) with
    | true =>
      rw [writtenBit_of_assigns value ht hassigns, if_pos rfl, testBit_piece f value ht]
    | false =>
      rw [writtenBit_of_merges value ht hassigns, if_neg Bool.false_ne_true, UInt8.toNat_or,
        Nat.testBit_or, testBit_piece f value ht, bitAt]
  · rw [if_neg ht, writtenBit_of_not_touches value ht, bitAt]

/-- **Writing at the front of zeros** puts the bits of the value there and leaves every other bit
as it is. -/
theorem exists_write?_of_zeros {f : BitField} {buffer : List UInt8} {value : UInt64}
    (h : f.offset + f.width ≤ 8 * buffer.length) (hvalue : value.toNat < 2 ^ f.width)
    (hzero : ∀ i, f.offset ≤ i → bitAt buffer i = false) :
    ∃ buffer', f.write? buffer value = some buffer' ∧ buffer'.length = buffer.length ∧
      f.Holds buffer' value.toNat ∧
      ∀ i, i < f.offset ∨ f.offset + f.width ≤ i → bitAt buffer' i = bitAt buffer i := by
  obtain ⟨buffer', hwrite, hlength, hbits⟩ := f.exists_write?_eq_some buffer value h
  refine ⟨buffer', hwrite, hlength, fun i hi hi' => ?_, fun i hi => ?_⟩
  · rw [hbits, writtenBit_of_zero value ⟨hi, hi'⟩ (hzero i hi)]
  rw [hbits]
  by_cases ht : f.Touches (i / 8)
  · rcases hi with hi | hi
    · -- Before the field, the byte is merged into, and the value has no bits to put there.
      have hmerges : f.assigns (f.fragmentIn (i / 8)) = false := by
        rw [Bool.eq_false_iff]
        intro hc
        have := offset_le_of_assigns hc
        omega
      have hhigh : value.toNat.testBit (f.offset + f.width - 1 - i) = false :=
        Nat.testBit_lt_two_pow
          (Nat.lt_of_lt_of_le hvalue (Nat.pow_le_pow_right (by decide) (by omega)))
      rw [writtenBit_of_merges value ht hmerges, hhigh, Bool.and_false, Bool.or_false]
    · rw [writtenBit, if_pos ht, hzero i (by omega), decide_eq_false (by omega), Bool.and_false,
        Bool.false_and, Bool.or_false]
  · exact writtenBit_of_not_touches value ht

/-! ### Writing in place -/

/-- **The mask of a fragment has the bits of the field.** -/
theorem testBit_mask (f : BitField) {i : Nat} (h : f.Touches (i / 8)) :
    (f.fragmentIn (i / 8)).mask.toNat.testBit (7 - i % 8) = decide (f.Covers i) := by
  have hshift := shift_fragmentIn h
  rw [Fragment.mask, UInt8.toNat_ofNat', Nat.testBit_mod_two_pow, Nat.testBit_shiftLeft,
    Nat.testBit_two_pow_sub_one, Bool.eq_iff_iff, hshift]
  simp only [Bool.and_eq_true, decide_eq_true_eq]
  simp only [Covers, fragmentIn]
  omega

/-- The complement of a byte, bit by bit. -/
theorem testBit_not {byte : UInt8} {j : Nat} (h : j < 8) :
    (~~~byte).toNat.testBit j = !byte.toNat.testBit j := by
  have hbyte : byte.toNat < 2 ^ 8 := byte.toNat_lt
  have hnot : (~~~byte).toNat = 2 ^ 8 - (byte.toNat + 1) := by
    rw [UInt8.toNat_not, Nat.sub_sub, Nat.add_comm 1]
  rw [hnot, Nat.testBit_two_pow_sub_succ hbyte, decide_eq_true h, Bool.true_and]

/-- **The bits behind writing in place**: those of the value in the field, and the old ones
elsewhere. -/
theorem exists_overwrite?_eq_some (f : BitField) (buffer : List UInt8) (value : UInt64)
    (h : f.offset + f.width ≤ 8 * buffer.length) :
    ∃ buffer', f.overwrite? buffer value = some buffer' ∧ buffer'.length = buffer.length ∧
      f.Holds buffer' value.toNat ∧ ∀ i, ¬f.Covers i → bitAt buffer' i = bitAt buffer i := by
  obtain ⟨buffer', hwrite, hlength, hbytes⟩ := changeFragments?_fragments
    (fun g old => (old &&& ~~~g.mask) ||| (g.piece value &&& g.mask)) f buffer h
  have hbits : ∀ i, bitAt buffer' i =
      if f.Covers i then value.toNat.testBit (f.offset + f.width - 1 - i) else bitAt buffer i := by
    intro i
    rw [bitAt, hbytes]
    by_cases ht : f.Touches (i / 8)
    · have hplace : 7 - i % 8 < 8 := by omega
      rw [if_pos ht]
      rw [UInt8.toNat_or, UInt8.toNat_and, UInt8.toNat_and, Nat.testBit_or, Nat.testBit_and,
        Nat.testBit_and, testBit_not hplace, testBit_mask f ht, testBit_piece f value ht]
      by_cases hcovers : f.Covers i
      · simp [hcovers, hcovers.2]
      · simp [hcovers, bitAt]
    · rw [if_neg ht, if_neg fun hcovers => ht hcovers.touches, bitAt]
  refine ⟨buffer', hwrite, hlength, fun i hi hi' => ?_, fun i hi => ?_⟩
  · rw [hbits, if_pos ⟨hi, hi'⟩]
  · rw [hbits, if_neg hi]

/-! ### Reading -/

/-- The bits that a fragment has in a byte are joined to a number from below. -/
theorem testBit_joined (g : Fragment) (start : Nat) (byte : UInt8) (j : Nat) :
    (start <<< g.width ||| g.extract byte).testBit j =
      if j < g.width then byte.toNat.testBit (g.shift + j) else start.testBit (j - g.width) := by
  rw [Nat.testBit_or, Nat.testBit_shiftLeft, Fragment.extract, Nat.testBit_mod_two_pow,
    Nat.testBit_shiftRight]
  by_cases hj : j < g.width
  · rw [if_pos hj, decide_eq_true hj, decide_eq_false (Nat.not_le.mpr hj), Bool.false_and,
      Bool.false_or, Bool.true_and]
  · rw [if_neg hj, decide_eq_false hj, decide_eq_true (Nat.not_lt.mp hj), Bool.true_and,
      Bool.false_and, Bool.or_false]

/-- Reading on from a number puts the bits of the field behind those of the number. -/
theorem foldlM_extract (f : BitField) (buffer : List UInt8) (start : Nat)
    (h : f.offset + f.width ≤ 8 * buffer.length) :
    ∃ value, f.fragments.foldlM (m := Option)
        (fun value g => buffer[g.index]?.map fun byte => value <<< g.width ||| g.extract byte)
        start = some value ∧
      ∀ j, value.testBit j =
        if j < f.width then bitAt buffer (f.offset + f.width - 1 - j)
        else start.testBit (j - f.width) := by
  induction f using fragments_induction generalizing start with
  | empty offset => exact ⟨start, by simp [fragments], fun j => by simp⟩
  | first f hw ih =>
    have hindex : f.offset / 8 < buffer.length := by omega
    have hbyte : buffer[f.offset / 8]? = some (buffer.getD (f.offset / 8) 0) := by
      rw [List.getD_eq_getElem?_getD, List.getElem?_eq_getElem hindex, Option.getD_some]
    have hwidth : (f.fragmentIn (f.offset / 8)).width = min f.width (8 - f.offset % 8) := by
      simp only [fragmentIn]
      omega
    have hshift : (f.fragmentIn (f.offset / 8)).shift =
        8 - f.offset % 8 - min f.width (8 - f.offset % 8) := by
      rw [Fragment.shift, hwidth]
      simp only [fragmentIn]
      omega
    obtain ⟨value, hvalue, hbits⟩ :=
      ih (start <<< (f.fragmentIn (f.offset / 8)).width |||
        (f.fragmentIn (f.offset / 8)).extract (buffer.getD (f.offset / 8) 0)) (by simp only; omega)
    refine ⟨value, ?_, fun j => ?_⟩
    · rw [fragments_eq_cons hw, List.foldlM_cons]
      simp only [show (f.fragmentIn (f.offset / 8)).index = f.offset / 8 from rfl, hbyte,
        Option.map_some]
      exact hvalue
    rw [hbits j, testBit_joined, hwidth, hshift]
    simp only
    -- The bit comes from the field that is left, from the first byte, or from `start`.
    by_cases hrest : j < f.width - min f.width (8 - f.offset % 8)
    · have hplace : f.offset + min f.width (8 - f.offset % 8) +
          (f.width - min f.width (8 - f.offset % 8)) - 1 - j = f.offset + f.width - 1 - j := by
        omega
      rw [if_pos hrest, if_pos (by omega), hplace]
    rw [if_neg hrest]
    by_cases hfirst : j < f.width
    · have hplace : (f.offset + f.width - 1 - j) / 8 = f.offset / 8 := by omega
      have hbit : 8 - f.offset % 8 - min f.width (8 - f.offset % 8) +
          (j - (f.width - min f.width (8 - f.offset % 8))) =
          7 - (f.offset + f.width - 1 - j) % 8 := by omega
      rw [if_pos hfirst, if_pos (by omega), bitAt, hplace, hbit]
    · have hplace : j - (f.width - min f.width (8 - f.offset % 8)) -
          min f.width (8 - f.offset % 8) = j - f.width := by omega
      rw [if_neg hfirst, if_neg (by omega), hplace]

/-- The number that reading joins fits into the field, and the field holds it. -/
theorem exists_foldlM_extract (f : BitField) (buffer : List UInt8)
    (h : f.offset + f.width ≤ 8 * buffer.length) :
    ∃ number, f.fragments.foldlM (m := Option)
      (fun value g => buffer[g.index]?.map fun byte => value <<< g.width ||| g.extract byte) 0 =
        some number ∧ number < 2 ^ f.width ∧ f.Holds buffer number := by
  obtain ⟨number, hnumber, hbits⟩ := f.foldlM_extract buffer 0 h
  refine ⟨number, hnumber, Nat.lt_pow_two_of_testBit number fun j hj => ?_,
    fun i hoffset hend => ?_⟩
  · rw [hbits, if_neg (Nat.not_lt.mpr hj), Nat.zero_testBit]
  · have hplace : f.offset + f.width - 1 - (f.offset + f.width - 1 - i) = i := by omega
    rw [hbits, if_pos (by omega), hplace]

/-- A number that fits into a field is known by the bits that the field holds. -/
theorem Holds.unique {f : BitField} {buffer : List UInt8} {number value : Nat}
    (hnumber : f.Holds buffer number) (hvalue : f.Holds buffer value)
    (hlt : number < 2 ^ f.width) (hlt' : value < 2 ^ f.width) : number = value := by
  refine Nat.eq_of_testBit_eq fun j => ?_
  by_cases hj : j < f.width
  · have hplace : j = f.offset + f.width - 1 - (f.offset + f.width - 1 - j) := by omega
    rw [hplace, ← hnumber _ (by omega) (by omega), ← hvalue _ (by omega) (by omega)]
  · have hpower : 2 ^ f.width ≤ 2 ^ j := Nat.pow_le_pow_right Nat.two_pos (Nat.not_lt.mp hj)
    rw [Nat.testBit_lt_two_pow (Nat.lt_of_lt_of_le hlt hpower),
      Nat.testBit_lt_two_pow (Nat.lt_of_lt_of_le hlt' hpower)]

/-- **Reading gives the number whose bits the field holds.** -/
theorem read?_eq_some {f : BitField} {buffer : List UInt8} {value : Nat}
    (h : f.offset + f.width ≤ 8 * buffer.length) (hvalue : value < 2 ^ f.width)
    (hholds : f.Holds buffer value) : f.read? buffer = some (UInt64.ofNat value) := by
  obtain ⟨number, hnumber, hlt, hjoined⟩ := f.exists_foldlM_extract buffer h
  rw [read?, hnumber, hjoined.unique hholds hlt hvalue, Option.map_some]

end BitField

end WireCodec
