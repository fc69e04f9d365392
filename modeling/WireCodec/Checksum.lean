import WireCodec.ByteOrder
import WireCodec.Checksum.Crc32
import WireCodec.Checksum.Fletcher16

/-!
# Checksum fields

A frame ends in a **checksum field** over all the bytes before it. `WireCodec.Checksum` names
the checksum and with it the form of the field: a cyclic redundancy check travels as four bytes,
the least significant first, and a Fletcher checksum as two bytes, the most significant first.
-/

namespace WireCodec

/-- **The checksum a frame carries.** -/
inductive Checksum
  /-- The cyclic redundancy check of `WireCodec.Crc32`. -/
  | crc32
  /-- The checksum of `WireCodec.Fletcher16`. -/
  | fletcher16
deriving DecidableEq, Repr

namespace Checksum

/-- How many bytes the checksum field has. -/
def fieldLength : Checksum → Nat
  | crc32 => 4
  | fletcher16 => 2

/-- The order of the bytes in the checksum field. -/
def byteOrder : Checksum → ByteOrder
  | crc32 => .little
  | fletcher16 => .big

/-- The checksum of a byte string. -/
def compute : Checksum → List UInt8 → UInt32
  | crc32, data => Crc32.compute data
  | fletcher16, data => (Fletcher16.compute data).toUInt32

/-- The checksum field over a byte string. -/
def field (c : Checksum) (data : List UInt8) : List UInt8 :=
  c.byteOrder.encode c.fieldLength (c.compute data).toNat

/-- **A byte string with its checksum field behind it.** -/
def append (c : Checksum) (data : List UInt8) : List UInt8 :=
  data ++ c.field data

/-- The value of the checksum field at the start of a byte string, if there are enough bytes. -/
def read? (c : Checksum) (bytes : List UInt8) : Option UInt32 :=
  if c.fieldLength ≤ bytes.length then
    some (UInt32.ofNat (c.byteOrder.decode (bytes.take c.fieldLength)))
  else none

/-- **A frame checks out** when it ends in the checksum field over the bytes before it. A frame
that is shorter than the field does not. -/
def verify (c : Checksum) (frame : List UInt8) : Bool :=
  if c.fieldLength ≤ frame.length then
    let covered := frame.length - c.fieldLength
    c.read? (frame.drop covered) == some (c.compute (frame.take covered))
  else false

@[simp] theorem length_field (c : Checksum) (data : List UInt8) :
    (c.field data).length = c.fieldLength := by
  simp [field]

@[simp] theorem length_append (c : Checksum) (data : List UInt8) :
    (c.append data).length = data.length + c.fieldLength := by
  simp [append]

end Checksum

end WireCodec
