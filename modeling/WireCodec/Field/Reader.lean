import WireCodec.ByteOrder
import WireCodec.Field.Error
import WireCodec.Field.Writer
import WireCodec.ScaledInteger

/-!
# Reading fields

A reader takes a field from an input with a position in it (`WireCodec.FieldCursor`) and moves the
position. Where the position is after a failure belongs to what a reader does:

* a request for a field that does not exist leaves it where it was;
* at the end of the input it moves there, also from behind it;
* a floating point number that is rejected has been read.
-/

namespace WireCodec

/-- **An input with a position in it.** -/
structure FieldCursor where
  /-- All bytes of the input. -/
  input : List UInt8
  /-- Where the next field starts; it may lie behind the end of the input. -/
  position : Nat
deriving DecidableEq, Repr

/-- A reader of fields. The cursor is kept when it fails. -/
abbrev FieldReader (α : Type) : Type :=
  ExceptT FieldError (StateM FieldCursor) α

namespace FieldReader

/-- **The next `count` bytes.** -/
def bytes (count : Nat) : FieldReader (List UInt8) := do
  let c ← getThe FieldCursor
  if c.position + count ≤ c.input.length then
    set { c with position := c.position + count }
    return (c.input.drop c.position).take count
  else
    set { c with position := c.input.length }
    throw .endOfInput

/-- Go on only if a check succeeds. The position is left alone in any case. -/
def require : Except FieldError Unit → FieldReader Unit
  | .ok _ => pure ()
  | .error e => throw e

/-! ### Integers -/

/-- **An unsigned integer** of `count` bytes. -/
def unsigned (order : ByteOrder) (count : Nat) : FieldReader UInt64 := do
  require (FieldWriter.checkByteCount count)
  return UInt64.ofNat (order.decode (← bytes count))

/-- A signed integer of `count` bytes. -/
def signed (order : ByteOrder) (count : Nat) : FieldReader Int64 :=
  return signExtend (← unsigned order count) (8 * count)

/-- The number that a scaled unsigned integer stands for. -/
def scaledUnsigned (order : ByteOrder) (min scaler : Float) (count : Nat) : FieldReader Float :=
  return scaledOfUnsigned (← unsigned order count) min scaler

/-- The number that a scaled signed integer stands for. -/
def scaledSigned (order : ByteOrder) (scaler : Float) (count : Nat) : FieldReader Float :=
  return scaledOfSigned (← signed order count) scaler

/-! ### Floating point numbers -/

/-- A compact number of the given width. -/
def compact (width : CompactWidth) (order : ByteOrder) (format : CompactFormat) :
    FieldReader Binary32 := do
  require (FieldWriter.checkWidth format width)
  return format.decode (order.decode (← bytes width.bytes))

/-- **A 32-bit pattern** of a regular number. -/
def binary32 (order : ByteOrder) : FieldReader Binary32 := do
  let x : Binary32 := ⟨UInt32.ofNat (order.decode (← bytes 4))⟩
  if x.isRegular then return x else throw (.irregularFloat x.value)

/-- **A 64-bit pattern** of a regular number. -/
def binary64 (order : ByteOrder) : FieldReader Binary64 := do
  let x : Binary64 := ⟨UInt64.ofNat (order.decode (← bytes 8))⟩
  if x.isRegular then return x else throw (.irregularFloat x.value)

end FieldReader

end WireCodec
