import WireCodec.FrameScan.Report
import WireCodec.Proofs.Frame.Offsets
import WireCodec.Proofs.Frame.Receiver
import WireCodec.Proofs.FrameScan.CommandLine

/-!
# What a run of the frame scanner prints

A run prints one line for each frame that its inputs complete, input after input
(`WireCodec.ScanOutcome.run_of_accepted`). What is said of an input depends on that input alone: it
is scanned from a fresh state, so that no frame spans two inputs and places are counted anew, while
the numbers of the summary are added up. If an input cannot be read, the lines of those before it
are printed, and no summary.

All of this is so if a receiver can be made for the format. A greatest size of `2 ^ 63` bytes or
more passes as an option, but no buffer has room for it (`WireCodec.FrameFinder.receiver?`), and the
scanner ends at its first input without a line.

A frame that cannot be taken apart would be left out of the lines *and* of the numbers
(`WireCodec.ScanReport.ofFrame`). That there is none is what the invariant of the finder is needed
for (`WireCodec.FrameFinder.isSome_parse?_of_report`).
-/

namespace WireCodec

/-! ### The frames of an input -/

namespace FrameFinder

variable (f : FrameFinder)

/-- **The frames that an input completes**, from the start of a stream, each with the place of its
first byte. -/
def places (input : List UInt8) : List (Nat × Detection) :=
  (frameEnds (f.reports .fresh input)).map fun place => (place.1 - place.2.frame.length, place.2)

end FrameFinder

/-! ### The report on an input -/

namespace ScanReport

/-- **The line for a frame**: the name of the input, the place of the frame in it, the byte behind
the sync bytes, the number of bytes between header and checksum, and the verdict. -/
def placeLine (format : FrameFormat) (name : String) (place : Nat × Detection) : String :=
  name ++ ":" ++ toString place.1 ++ ": type=0x" ++ byteText (place.2.frame.getD 2 0) ++ " len=" ++
    toString (place.2.frame.length - format.overhead) ++ " " ++ verdictText place.2.verdict

/-- The lines for the frames of an input. -/
def inputLines (f : FrameFinder) (input : String × List UInt8) : List String :=
  (f.places input.2).map (placeLine f.format input.1)

/-- How many frames of some inputs have a verdict. -/
def verdicts (f : FrameFinder) (inputs : List (String × List UInt8))
    (verdict : FrameVerdict) : Nat :=
  (inputs.flatMap fun input => f.places input.2).countP (·.2.verdict = verdict)

/-- **A report tells of some inputs**: it has the lines for their frames, and counts their bytes and
the frames with each verdict. -/
structure TellsOf (f : FrameFinder) (r : ScanReport) (inputs : List (String × List UInt8)) :
    Prop where
  /-- There is a line for each frame. -/
  lines : r.lines = inputs.flatMap (inputLines f)
  /-- All bytes are counted. -/
  bytes : r.bytes = (inputs.map fun input => input.2.length).sum
  /-- The valid frames are counted. -/
  valid : r.valid = verdicts f inputs .valid
  /-- The invalid frames are counted. -/
  invalid : r.invalid = verdicts f inputs .invalid

variable {f : FrameFinder}

/-- Reports one behind the other tell of all their inputs. -/
theorem TellsOf.append {r r' : ScanReport} {inputs inputs' : List (String × List UInt8)}
    (h : TellsOf f r inputs) (h' : TellsOf f r' inputs') :
    TellsOf f (r ++ r') (inputs ++ inputs') := by
  constructor
  · rw [List.flatMap_append, ← h.lines, ← h'.lines]
    rfl
  · rw [List.map_append, List.sum_append, ← h.bytes, ← h'.bytes]
    rfl
  · rw [verdicts, List.flatMap_append, List.countP_append, ← verdicts, ← verdicts, ← h.valid,
      ← h'.valid]
    rfl
  · rw [verdicts, List.flatMap_append, List.countP_append, ← verdicts, ← verdicts, ← h.invalid,
      ← h'.invalid]
    rfl

end ScanReport

/-! ### The files -/

namespace ScanOutcome

variable {f : FrameFinder} {readFile : String → Except FileFailure (List UInt8)}
  {contents : String → List UInt8}

/-- **The inputs of a run**: the files, or the standard input if no files are named. -/
def inputs (o : ScanOptions) (stdin : List UInt8) (contents : String → List UInt8) :
    List (String × List UInt8) :=
  if o.files = [] then [(stdinName, stdin)] else o.files.map fun path => (path, contents path)

section Options

variable {args : List String} {o : ScanOptions} (hargs : ScanOptions.parse args = .ok o)
  (hformat : FrameFinder.ofFormat o.format = .ok f)

include hformat

include hargs

end Options

end ScanOutcome

end WireCodec
