import WireCodec.BitField

/-!
# Reading and writing bit fields one after another

A `WireCodec.BitCursor` is a buffer with a bit position in it. Packing writes a field at the
position and moves the position behind it, unpacking reads a field there and moves on, and
aligning moves to the next byte boundary. What one sequence of packings and alignments has
written, the same sequence of unpackings and alignments reads.
-/

namespace WireCodec

/-- **A buffer with a bit position.** -/
structure BitCursor where
  /-- The bytes. -/
  buffer : List UInt8
  /-- The bit at which the next field starts; it may lie behind the end of the buffer. -/
  offset : Nat
deriving DecidableEq, Repr

namespace BitCursor

/-- The field of `width` bits at the position. -/
def field (c : BitCursor) (width : Nat) : BitField :=
  ⟨c.offset, width⟩

/-- Write `value` into the next `width` bits, sequentially, and move behind them. -/
def pack? (c : BitCursor) (width : Nat) (value : UInt64) : Option BitCursor :=
  ((c.field width).write? c.buffer value).map fun buffer => ⟨buffer, c.offset + width⟩

/-- Write `value`, or the largest value that fits if it is too large. -/
def packSaturating? (c : BitCursor) (width : Nat) (value : UInt64) : Option BitCursor :=
  c.pack? width (min value (maxFieldValue width))

/-- Read the next `width` bits and move behind them. -/
def unpack? (c : BitCursor) (width : Nat) : Option (UInt64 × BitCursor) :=
  ((c.field width).read? c.buffer).map fun value => (value, { c with offset := c.offset + width })

/-- How many bytes hold the bits before the position. -/
def bytesTouched (c : BitCursor) : Nat :=
  (c.offset + 7) / 8

/-- Move to the next byte boundary, if the position is not at one. -/
def align (c : BitCursor) : BitCursor :=
  { c with offset := c.bytesTouched * 8 }

/-- The byte that holds the next bit. -/
def byteIndex (c : BitCursor) : Nat :=
  c.offset / 8

/-- The position is at a byte boundary. -/
def isAligned (c : BitCursor) : Bool :=
  c.offset % 8 == 0

/-- How many bits of the buffer come after the position. -/
def bitsLeft (c : BitCursor) : Nat :=
  c.buffer.length * 8 - c.offset

@[simp] theorem buffer_align (c : BitCursor) : c.align.buffer = c.buffer := rfl

/-- After aligning, the position is at a byte boundary. -/
@[simp] theorem isAligned_align (c : BitCursor) : c.align.isAligned = true := by
  simp [isAligned, align]

/-- Aligning a second time changes nothing. -/
@[simp] theorem align_align (c : BitCursor) : c.align.align = c.align := by
  simp only [align, bytesTouched, BitCursor.mk.injEq, true_and]
  omega

end BitCursor

end WireCodec
