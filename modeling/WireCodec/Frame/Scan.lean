import WireCodec.Frame.Finder

/-!
# Scanning a stream

A stream is read piece by piece. Where the pieces are cut does not matter, and a read that was
interrupted is tried again; a read of no bytes is the end of the stream, and any other failure
ends the scan there. Each frame is reported with the place of its first byte in the stream.
-/

namespace WireCodec

/-- **What comes of one attempt to read.** -/
inductive ReadEvent
  /-- Some bytes; if there are none, the end of the stream. -/
  | piece (bytes : List UInt8)
  /-- The attempt was interrupted. -/
  | interrupted
  /-- The attempt failed. -/
  | failure (message : String)
deriving DecidableEq, Repr

/-- **How far a scan has come.** -/
structure ScanProgress where
  /-- What is known about the stream. -/
  state : StreamState
  /-- How many bytes have been taken in. -/
  consumed : Nat := 0
  /-- The frames found, each with the place of its first byte in the stream. -/
  found : Array (Nat × Detection) := #[]
deriving Repr

namespace FrameFinder

/-- Take in one byte of a scan. -/
def scanByte (f : FrameFinder) (p : ScanProgress) (byte : UInt8) : ScanProgress :=
  match p with
  | ⟨s, consumed, found⟩ =>
    match f.push s byte with
    | (s, none) => ⟨s, consumed + 1, found⟩
    | (s, some verdict) =>
      ⟨s, consumed + 1, found.push (consumed + 1 - s.count, ⟨verdict, s.buffer⟩)⟩

/-- Take in the bytes of one piece. -/
def scanPiece (f : FrameFinder) (p : ScanProgress) (bytes : List UInt8) : ScanProgress :=
  bytes.foldl f.scanByte p

/-- Go on with a scan until the stream ends or fails, in which case there is a message. -/
def scanFrom (f : FrameFinder) (p : ScanProgress) : List ReadEvent → ScanProgress × Option String
  | [] => (p, none)
  | .piece [] :: _ => (p, none)
  | .piece (b :: bytes) :: events => f.scanFrom (f.scanPiece p (b :: bytes)) events
  | .interrupted :: events => f.scanFrom p events
  | .failure message :: _ => (p, some message)

/-- **Scan a stream** from its start, with what is known from before. -/
def scan (f : FrameFinder) (s : StreamState) (events : List ReadEvent) :
    ScanProgress × Option String :=
  f.scanFrom { state := s } events

end FrameFinder

end WireCodec
