import WireCodec.Power

/-!
# Bit fields in a byte buffer

A **bit field** is a run of bits of a byte buffer, given by the offset of its first bit and by
its width. Bits are counted from the most significant end: bit `0` of a buffer is the most
significant bit of its first byte, and the most significant bit of a field's value stands at
the field's first bit.

A field that crosses byte boundaries is cut into `WireCodec.BitField.Fragment`s, one for each
byte it touches (`WireCodec.BitField.fragments`). Reading and both ways of writing go through
the fragments from the first to the last, so a fragment says all there is to say about one byte:
which one it is, which of its bits belong to the field, and which bits of the value they hold.

There are two ways to write.

* `WireCodec.BitField.write?` is the sequential one, for buffers that are filled from the front.
  A byte that the field covers entirely is assigned, and so is the only byte of a field that
  starts on a byte boundary and ends in that byte; every other fragment is merged into its byte
  by a bitwise or. The value is not cut down to the width of the field.
* `WireCodec.BitField.overwrite?` replaces the bits of the field and nothing else.

All three answer `none` exactly when they would touch a byte that the buffer does not have.
-/

namespace WireCodec

/-- **The largest value that `width` bits hold**, `2 ^ width - 1`, and no more than a word
holds: from `64` bits on it is the largest word. -/
def maxFieldValue (width : Nat) : UInt64 :=
  if 64 ≤ width then 0xFFFFFFFFFFFFFFFF else UInt64.ofNat (2 ^ width - 1)

theorem toNat_maxFieldValue {width : Nat} (h : width ≤ 64) :
    (maxFieldValue width).toNat = 2 ^ width - 1 := by
  unfold maxFieldValue
  by_cases hw : 64 ≤ width
  · rw [if_pos hw, Nat.le_antisymm h hw]
    rfl
  · have hlt : 2 ^ width < 2 ^ 64 := Nat.pow_lt_pow_right (by decide) (by omega)
    rw [if_neg hw, UInt64.toNat_ofNat', Nat.mod_eq_of_lt (by omega)]

/-- The bits that a field of at most a word has room for, cut out of a word. -/
theorem toNat_and_maxFieldValue {width : Nat} (h : width ≤ 64) (value : UInt64) :
    (value &&& maxFieldValue width).toNat = value.toNat % 2 ^ width := by
  rw [UInt64.toNat_and, toNat_maxFieldValue h, Nat.and_two_pow_sub_one_eq_mod]

/-- **A bit field**: `width` bits of a buffer, the first of them at bit `offset`. -/
structure BitField where
  /-- The bit of the buffer at which the field starts. -/
  offset : Nat
  /-- The number of bits of the field. -/
  width : Nat
deriving DecidableEq, Repr

namespace BitField

/-! ### Fragments -/

/-- The part of a bit field that lies in one byte. -/
structure Fragment where
  /-- The byte of the buffer. -/
  index : Nat
  /-- How many bits of the byte stand before the fragment. -/
  lead : Nat
  /-- How many bits of the byte belong to the fragment. -/
  width : Nat
  /-- How many bits of the field come after the fragment. -/
  rest : Nat
deriving DecidableEq, Repr

/-- How many bits of the byte stand after the fragment. -/
def Fragment.shift (g : Fragment) : Nat :=
  8 - g.lead - g.width

/-- The bits of the byte that belong to the fragment, as a mask. -/
def Fragment.mask (g : Fragment) : UInt8 :=
  UInt8.ofNat ((2 ^ g.width - 1) <<< g.shift)

/-- The byte that holds the fragment's share of `value` in place. Bits of the value above the
field are not removed: they stand before the fragment. -/
def Fragment.piece (g : Fragment) (value : UInt64) : UInt8 :=
  UInt8.ofNat ((value.toNat >>> g.rest) <<< g.shift)

/-- The number that the fragment's bits of `byte` spell. -/
def Fragment.extract (g : Fragment) (byte : UInt8) : Nat :=
  (byte.toNat >>> g.shift) % 2 ^ g.width

/-- The fragments of `width` bits from bit `offset` on, in the order of the bytes. -/
def fragmentsFrom (offset width : Nat) : List Fragment :=
  if width = 0 then []
  else
    let taken := min width (8 - offset % 8)
    ⟨offset / 8, offset % 8, taken, width - taken⟩ ::
      fragmentsFrom (offset + taken) (width - taken)
termination_by width
decreasing_by omega

/-- **The fragments of a field**, one for each byte it touches, in the order of the bytes. -/
def fragments (f : BitField) : List Fragment :=
  fragmentsFrom f.offset f.width

@[simp] theorem fragmentsFrom_zero (offset : Nat) : fragmentsFrom offset 0 = [] := by
  rw [fragmentsFrom, if_pos rfl]

/-- A field that is not empty starts with the fragment in the byte of its first bit. -/
theorem fragmentsFrom_of_ne_zero {width : Nat} (offset : Nat) (h : width ≠ 0) :
    fragmentsFrom offset width =
      ⟨offset / 8, offset % 8, min width (8 - offset % 8), width - min width (8 - offset % 8)⟩ ::
        fragmentsFrom (offset + min width (8 - offset % 8))
          (width - min width (8 - offset % 8)) := by
  rw [fragmentsFrom, if_neg h]

/-- The field ends in the byte in which it starts. -/
def fitsByte (f : BitField) : Bool :=
  f.offset % 8 + f.width ≤ 8

/-- In sequential writing the fragment's byte is assigned, not merged into: the field covers it
entirely, or it is the only byte of a field that starts on a byte boundary. -/
def assigns (f : BitField) (g : Fragment) : Bool :=
  g.width == 8 || (f.fitsByte && g.lead == 0)

/-! ### Reading and writing -/

/-- The buffer with the byte at `index` changed by `change`, if it has that byte. -/
def changeByte? (buffer : List UInt8) (index : Nat) (change : UInt8 → UInt8) :
    Option (List UInt8) :=
  if index < buffer.length then some (buffer.modify index change) else none

/-- **Sequential writing** of `value` into the field: whole bytes are assigned, and so is the
byte of a field that fits into one byte from its boundary on; other fragments are merged in by
a bitwise or. -/
def write? (f : BitField) (buffer : List UInt8) (value : UInt64) : Option (List UInt8) :=
  f.fragments.foldlM
    (fun buf g => changeByte? buf g.index fun old =>
      if f.assigns g then g.piece value else old ||| g.piece value)
    buffer

/-- **Writing in place**: the bits of the field become the low bits of `value`, and every other
bit of the buffer stays as it is. -/
def overwrite? (f : BitField) (buffer : List UInt8) (value : UInt64) : Option (List UInt8) :=
  f.fragments.foldlM
    (fun buf g => changeByte? buf g.index fun old =>
      (old &&& ~~~g.mask) ||| (g.piece value &&& g.mask))
    buffer

/-- **Reading**: the number that the bits of the field spell. -/
def read? (f : BitField) (buffer : List UInt8) : Option UInt64 :=
  (f.fragments.foldlM
    (fun value g => buffer[g.index]?.map fun byte => value <<< g.width ||| g.extract byte)
    0).map UInt64.ofNat

@[simp] theorem write?_width_zero (offset : Nat) (buffer : List UInt8) (value : UInt64) :
    (⟨offset, 0⟩ : BitField).write? buffer value = some buffer := by
  simp [write?, fragments]

@[simp] theorem overwrite?_width_zero (offset : Nat) (buffer : List UInt8) (value : UInt64) :
    (⟨offset, 0⟩ : BitField).overwrite? buffer value = some buffer := by
  simp [overwrite?, fragments]

@[simp] theorem read?_width_zero (offset : Nat) (buffer : List UInt8) :
    (⟨offset, 0⟩ : BitField).read? buffer = some 0 := by
  simp [read?, fragments]

end BitField

end WireCodec
