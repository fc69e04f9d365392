import WireCodec.ByteOrder
import WireCodec.Field.Error
import WireCodec.ScaledInteger

/-!
# Writing fields

Each writer appends one field to the bytes written so far, in the given order of bytes, and
answers all bytes written then. If it fails, nothing is appended.
-/

namespace WireCodec.FieldWriter

/-- Fails unless integer fields of this many bytes exist. -/
def checkByteCount (count : Nat) : Except FieldError Unit :=
  if 1 ≤ count ∧ count ≤ 8 then .ok () else .error (.byteCount count)

/-- Fails unless the format is as wide as the field. -/
def checkWidth (format : CompactFormat) (width : CompactWidth) : Except FieldError Unit :=
  if format.width = width then .ok () else .error (.formatWidth width format.width)

/-! ### Integers -/

/-- **Write the low `count` bytes** of an unsigned integer. -/
def unsigned (order : ByteOrder) (output : List UInt8) (value : UInt64) (count : Nat) :
    Except FieldError (List UInt8) := do
  checkByteCount count
  return output ++ order.encode count value.toNat

/-- Write the low `count` bytes of the two's complement pattern of a signed integer. -/
def signed (order : ByteOrder) (output : List UInt8) (value : Int64) (count : Nat) :
    Except FieldError (List UInt8) :=
  unsigned order output value.toUInt64 count

/-- Write a number as a scaled unsigned integer. -/
def scaledUnsigned (order : ByteOrder) (output : List UInt8) (value min scaler : Float)
    (count : Nat) : Except FieldError (List UInt8) :=
  unsigned order output (unsignedOfScaled value min scaler (8 * count)) count

/-- Write a number as a scaled signed integer. -/
def scaledSigned (order : ByteOrder) (output : List UInt8) (value scaler : Float)
    (count : Nat) : Except FieldError (List UInt8) :=
  signed order output (signedOfScaled value scaler (8 * count)) count

/-! ### Floating point numbers -/

/-- Write a compact number of the given width. -/
def compact (width : CompactWidth) (order : ByteOrder) (output : List UInt8) (value : Binary32)
    (format : CompactFormat) : Except FieldError (List UInt8) := do
  checkWidth format width
  return output ++ order.encode width.bytes (format.encode value)

/-- Write a 32-bit pattern. -/
def binary32 (order : ByteOrder) (output : List UInt8) (value : Binary32) : List UInt8 :=
  output ++ order.encode 4 value.bits.toNat

/-- Write a 64-bit pattern. -/
def binary64 (order : ByteOrder) (output : List UInt8) (value : Binary64) : List UInt8 :=
  output ++ order.encode 8 value.bits.toNat

end WireCodec.FieldWriter
