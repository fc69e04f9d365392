import WireCodec.Checksum

/-!
# Frames

A **frame** carries one packet: two sync bytes, a byte for the type of the packet, the length of
the body in one or two bytes with the least significant one first, the body, and a checksum field
over everything before it. A `WireCodec.FrameFormat` fixes what is the same for all frames of a
stream, and with it the greatest size of a whole frame.

`WireCodec.FrameFormat.encode` puts a frame together, and `WireCodec.FrameFormat.parse?` takes one
apart again; the latter does not look at the checksum.
-/

namespace WireCodec

/-- How many bytes hold the length of the body. -/
inductive LengthWidth
  /-- One byte. -/
  | one
  /-- Two bytes. -/
  | two
deriving DecidableEq, Repr

namespace LengthWidth

/-- The number of bytes. -/
def bytes : LengthWidth → Nat
  | one => 1
  | two => 2

/-- The greatest length that can be declared. -/
def maxBody : LengthWidth → Nat
  | one => 255
  | two => 65535

end LengthWidth

/-- **Why a format or a frame was refused.** -/
inductive FrameError
  /-- The greatest frame of the format has no room for a body. -/
  | noRoom (maxSize overhead : Nat)
  /-- The frame would be longer than the format allows or the length field can say. -/
  | tooLarge (length max : Nat)
deriving DecidableEq, Repr

/-- The wording of the error. -/
def FrameError.message : FrameError → String
  | noRoom maxSize overhead =>
    s!"Invalid frame layout: max frame size {maxSize} leaves no room for a body " ++
      s!"(overhead {overhead})"
  | tooLarge length max => s!"Frame too large: {length} bytes (max {max})"

/-- **What the frames of a stream have in common.** -/
structure FrameFormat where
  /-- The first byte of every frame. -/
  sync0 : UInt8
  /-- The second byte of every frame. -/
  sync1 : UInt8
  /-- The width of the length field. -/
  lengthWidth : LengthWidth
  /-- The checksum at the end. -/
  checksum : Checksum
  /-- The greatest size of a whole frame. -/
  maxSize : Nat
deriving DecidableEq, Repr

/-- The fields of a frame. -/
structure Frame where
  /-- The type of the packet. -/
  packetType : UInt8
  /-- The body. -/
  body : List UInt8
  /-- The value of the checksum field. -/
  checksum : UInt32
deriving DecidableEq, Repr

namespace FrameFormat

/-- The number of bytes before the body: sync bytes, type and length. -/
def headerLength (f : FrameFormat) : Nat :=
  3 + f.lengthWidth.bytes

/-- The number of bytes of a frame without a body. -/
def overhead (f : FrameFormat) : Nat :=
  f.headerLength + f.checksum.fieldLength

/-! ### Making formats -/

/-- The format with the given sync bytes, one length byte, a cyclic redundancy check, and room for
the longest body that can be declared. -/
def ofSync (sync0 sync1 : UInt8) : FrameFormat :=
  let f : FrameFormat := ⟨sync0, sync1, .one, .crc32, 0⟩
  { f with maxSize := f.overhead + LengthWidth.one.maxBody }

/-- The format with another checksum, and with room for the same bodies. -/
def withChecksum (f : FrameFormat) (checksum : Checksum) : FrameFormat :=
  let body := f.maxSize - f.overhead
  let f := { f with checksum }
  { f with maxSize := f.overhead + body }

/-- The format with another length field, and with room for the longest body that can be
declared. -/
def withLengthWidth (f : FrameFormat) (lengthWidth : LengthWidth) : FrameFormat :=
  let f := { f with lengthWidth }
  { f with maxSize := f.overhead + lengthWidth.maxBody }

/-- The format with another greatest size of a frame. -/
def withMaxSize (f : FrameFormat) (maxSize : Nat) : FrameFormat :=
  { f with maxSize }

/-- Frames of the format may have a body. -/
def HasRoom (f : FrameFormat) : Prop :=
  f.overhead < f.maxSize

instance (f : FrameFormat) : Decidable f.HasRoom :=
  inferInstanceAs (Decidable (f.overhead < f.maxSize))

/-- **Refuses a format** that has no room for a body. -/
def validate (f : FrameFormat) : Except FrameError Unit :=
  if f.HasRoom then .ok () else .error (.noRoom f.maxSize f.overhead)

/-! ### Frames -/

/-- The bytes before the body. -/
def header (f : FrameFormat) (packetType : UInt8) (bodyLength : Nat) : List UInt8 :=
  f.sync0 :: f.sync1 :: packetType :: littleEndian f.lengthWidth.bytes bodyLength

/-- **The frame around a body**, unless the length field cannot hold its length or the frame is
larger than the format allows. -/
def encode (f : FrameFormat) (packetType : UInt8) (body : List UInt8) :
    Except FrameError (List UInt8) :=
  let length := f.overhead + body.length
  if f.lengthWidth.maxBody < body.length then
    .error (.tooLarge length (f.overhead + f.lengthWidth.maxBody))
  else if f.maxSize < length then .error (.tooLarge length f.maxSize)
  else .ok (f.checksum.append (f.header packetType body.length ++ body))

/-- The length of the body that the start of a frame declares, once the header is complete. -/
def bodyLength? (f : FrameFormat) (frame : List UInt8) : Option Nat :=
  if f.headerLength ≤ frame.length then
    some (ofLittleEndian ((frame.drop 3).take f.lengthWidth.bytes))
  else none

/-- **The fields of a frame**, if it starts with the sync bytes and is as long as it declares. -/
def parse? (f : FrameFormat) (frame : List UInt8) : Option Frame :=
  match f.bodyLength? frame, frame with
  | some bodyLength, sync0 :: sync1 :: packetType :: _ =>
    if frame.length = f.overhead + bodyLength ∧ sync0 = f.sync0 ∧ sync1 = f.sync1 then
      let rest := frame.drop f.headerLength
      (f.checksum.read? (rest.drop bodyLength)).map fun checksum =>
        ⟨packetType, rest.take bodyLength, checksum⟩
    else none
  | _, _ => none

@[simp] theorem length_header (f : FrameFormat) (packetType : UInt8) (bodyLength : Nat) :
    (f.header packetType bodyLength).length = f.headerLength := by
  simp [header, headerLength]
  omega

end FrameFormat

end WireCodec
