import WireCodec.Frame.Format

/-!
# Finding frames in a stream

Frames are found in a stream one byte at a time. A `WireCodec.StreamState` is all that is known
about the stream so far:

* it is **hunting** for the first sync byte, possibly with a frame that the last byte completed;
* it is **anchored** at a first sync byte and waits for the second one;
* it is **collecting** the bytes of a frame.

A `WireCodec.FrameFinder` is a format with room for a body, and
`WireCodec.FrameFinder.push` is its one step. A second byte that is not the second sync byte may
still be a first one. A frame is complete as soon as it is as long as its header declares; only
then is its checksum looked at. A frame that reaches the greatest size before it is complete is
given up, and the hunt starts again behind its last byte.
-/

namespace WireCodec

/-- **What is known about a stream.** -/
inductive StreamState
  /-- Waiting for a first sync byte. -/
  | hunting
  /-- The last byte has completed this frame. Waiting for the first sync byte of the next one. -/
  | completed (frame : Array UInt8)
  /-- The last byte was this first sync byte. Waiting for the second one. -/
  | anchored (sync0 : UInt8)
  /-- In the middle of a frame, of which these are the bytes so far. -/
  | collecting (bytes : Array UInt8)
deriving DecidableEq, Repr

namespace StreamState

/-- The state at the start of a stream. -/
def fresh : StreamState := hunting

/-- The bytes of the frame that is being collected or was just completed. -/
def buffer : StreamState → List UInt8
  | hunting => []
  | completed frame => frame.toList
  | anchored sync0 => [sync0]
  | collecting bytes => bytes.toList

/-- How many bytes the buffer holds. -/
def count : StreamState → Nat
  | hunting => 0
  | completed frame => frame.size
  | anchored _ => 1
  | collecting bytes => bytes.size

/-- The frame that the last byte completed, whether or not its checksum is right. -/
def frame? : StreamState → Option (List UInt8)
  | completed frame => some frame.toList
  | _ => none

/-- The count is the length of the buffer. -/
@[simp] theorem length_buffer (s : StreamState) : s.buffer.length = s.count := by
  cases s <;> simp [buffer, count]

end StreamState

/-- **What the checksum says of a complete frame.** -/
inductive FrameVerdict
  /-- The checksum is right. -/
  | valid
  /-- The checksum is wrong; the frame is to be thrown away. -/
  | invalid
deriving DecidableEq, Repr

/-- A frame that was found, and what its checksum says. -/
structure Detection where
  /-- Whether the checksum is right. -/
  verdict : FrameVerdict
  /-- All bytes of the frame. -/
  frame : List UInt8
deriving DecidableEq, Repr

/-- **A format in which frames can be found**: one with room for a body. -/
structure FrameFinder where
  /-- The format of the frames. -/
  format : FrameFormat
  /-- Frames may have a body. -/
  hasRoom : format.HasRoom

namespace FrameFinder

/-- The finder for a format. -/
def ofFormat (format : FrameFormat) : Except FrameError FrameFinder :=
  if h : format.HasRoom then .ok ⟨format, h⟩
  else .error (.noRoom format.maxSize format.overhead)

/-- The most bytes that a buffer can have room for. -/
def bufferLimit : Nat := 2 ^ 63 - 1

/-- **The state at the start of a stream**, with a buffer set aside for the greatest frame. There is
none if no buffer has room for such a frame. -/
def receiver? (f : FrameFinder) : Option StreamState :=
  if f.format.maxSize ≤ bufferLimit then some .fresh else none

/-- What the checksum of a complete frame says. -/
def judge (f : FrameFinder) (frame : List UInt8) : FrameVerdict :=
  if f.format.checksum.verify frame then .valid else .invalid

/-- The size of the whole frame, once its header is among the bytes. -/
def expectedSize? (f : FrameFinder) (bytes : Array UInt8) : Option Nat :=
  (f.format.bodyLength? (bytes.extract 0 f.format.headerLength).toList).map
    (· + f.format.overhead)

/-- The state behind a byte of which it is not yet known that it belongs to a frame. -/
def anchor (f : FrameFinder) (byte : UInt8) : StreamState :=
  if byte = f.format.sync0 then .anchored byte else .hunting

/-- The state behind the last of `bytes`, which are the start of a frame, and the verdict on
the frame if that byte completes it. -/
def collect (f : FrameFinder) (bytes : Array UInt8) : StreamState × Option FrameVerdict :=
  if f.expectedSize? bytes = some bytes.size then (.completed bytes, some (f.judge bytes.toList))
  else if f.format.maxSize ≤ bytes.size then (.hunting, none)
  else (.collecting bytes, none)

/-- **Take in one byte**: the state behind it, and the verdict on the frame that it completes,
if it completes one. -/
def push (f : FrameFinder) (s : StreamState) (byte : UInt8) :
    StreamState × Option FrameVerdict :=
  match s with
  | .hunting => (f.anchor byte, none)
  | .completed _ => (f.anchor byte, none)
  | .anchored sync0 =>
    if byte = f.format.sync1 then (.collecting #[sync0, byte], none) else (f.anchor byte, none)
  | .collecting bytes => f.collect (bytes.push byte)

/-! ### Many bytes -/

/-- Take in one byte, and put the frame that it completes behind those found before. -/
def pushInto (f : FrameFinder) (state : StreamState × Array Detection) (byte : UInt8) :
    StreamState × Array Detection :=
  match state with
  | (s, found) =>
    match f.push s byte with
    | (s, none) => (s, found)
    | (s, some verdict) => (s, found.push ⟨verdict, s.buffer⟩)

/-- **Take in many bytes**: the state behind them, and all frames that they complete. -/
def pushAll (f : FrameFinder) (s : StreamState) (bytes : List UInt8) :
    StreamState × Array Detection :=
  bytes.foldl f.pushInto (s, #[])

@[simp] theorem pushAll_nil (f : FrameFinder) (s : StreamState) : f.pushAll s [] = (s, #[]) := rfl

end FrameFinder

end WireCodec
