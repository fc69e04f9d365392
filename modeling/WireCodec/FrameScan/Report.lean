import WireCodec.Frame.Scan
import WireCodec.FrameScan.Options

/-!
# What the frame scanner reports

Each input, a file or the standard input, is scanned on its own. There is one line for each frame
in it, with the place of its first byte, its type, the length of its body and the verdict on it;
and a summary of all inputs behind them. The scanner fails if a frame is invalid, if an input
cannot be read, in which case the inputs before it are still reported, or if the options are at
fault.

For each input a buffer is set aside that has room for the greatest frame, after the input has been
opened and before it is read. A greatest size that no buffer has room for passes as an option, and
the scanner crashes at the first input.
-/

namespace WireCodec

/-! ### One input -/

/-- **The report on some inputs.** -/
structure ScanReport where
  /-- A line for each frame. -/
  lines : List String := []
  /-- A line for each frame that was thrown away. -/
  discarded : List String := []
  /-- How many bytes there are. -/
  bytes : Nat := 0
  /-- How many frames are valid. -/
  valid : Nat := 0
  /-- How many frames are invalid. -/
  invalid : Nat := 0
deriving DecidableEq, Repr

namespace ScanReport

/-- Two reports, one behind the other. -/
def append (a b : ScanReport) : ScanReport :=
  { lines := a.lines ++ b.lines
    discarded := a.discarded ++ b.discarded
    bytes := a.bytes + b.bytes
    valid := a.valid + b.valid
    invalid := a.invalid + b.invalid }

instance : Append ScanReport := ⟨append⟩

/-- The wording of a verdict. -/
def verdictText : FrameVerdict → String
  | .valid => "valid"
  | .invalid => "invalid"

/-- A byte as two capital hexadecimal digits. -/
def byteText (b : UInt8) : String :=
  String.ofList ((Nat.toDigits 16 (b.toNat / 16) ++ Nat.toDigits 16 (b.toNat % 16)).map
    Char.toUpper)

/-- The line for a frame. -/
def frameLine (name : String) (offset : Nat) (frame : Frame) (verdict : FrameVerdict) :
    String :=
  name ++ ":" ++ toString offset ++ ": type=0x" ++ byteText frame.packetType ++ " len=" ++
    toString frame.body.length ++ " " ++ verdictText verdict

/-- The line for a frame that was thrown away. -/
def discardedLine (frame : List UInt8) : String :=
  "DEBUG protocodec::frame: checksum mismatch, frame discarded len=" ++ toString frame.length ++
    " packet_type=" ++ toString ((frame.drop 2).headD 0)

/-- The report on one frame, found at an offset of the named input. -/
def ofFrame (format : FrameFormat) (name : String) (offset : Nat) (found : Detection) :
    ScanReport :=
  let lines :=
    match format.parse? found.frame with
    | some frame => [frameLine name offset frame found.verdict]
    | none => []
  match found.verdict with
  | .valid => { lines, valid := lines.length }
  | .invalid => { lines, discarded := [discardedLine found.frame], invalid := lines.length }

/-- **The report on one input**, scanned from the state of its receiver. -/
def ofInput (f : FrameFinder) (receiver : StreamState) (name : String) (input : List UInt8) :
    ScanReport :=
  let (scan, _) := f.scan receiver [.piece input]
  scan.found.foldl (fun report (offset, found) => report ++ ofFrame f.format name offset found)
    { bytes := scan.consumed }

/-- The summary of a report. -/
def summary (r : ScanReport) : String :=
  s!"frame_scan: {r.bytes} byte(s), {r.valid} valid frame(s), {r.invalid} invalid frame(s)"

end ScanReport

/-! ### Failures -/

/-- **Why a file could not be read.** -/
inductive FileFailure
  /-- There is no such file. -/
  | notFound
  /-- The file is a directory. -/
  | isDirectory
  /-- A part of the path that is to be a directory is none. -/
  | notADirectory
  /-- A part of the path is longer than names can be. -/
  | nameTooLong
  /-- Any other reason, in the words of the system. -/
  | other (message : String)
deriving DecidableEq, Repr

namespace FileFailure

/-- The words of the system. -/
def message : FileFailure → String
  | notFound => "No such file or directory (os error 2)"
  | isDirectory => "Is a directory (os error 21)"
  | notADirectory => "Not a directory (os error 20)"
  | nameTooLong => "File name too long (os error 36)"
  | other message => message

/-- The file can be opened all the same: a directory can be, but it cannot be read. -/
def isOpened : FileFailure → Bool
  | isDirectory => true
  | _ => false

/-- What could not be done. -/
def action (failure : FileFailure) : String :=
  if failure.isOpened then "read failed" else "open failed"

end FileFailure

/-- **Why the scanner gave up.** -/
inductive ScanFailure
  /-- The options are at fault. -/
  | usage (error : UsageError)
  /-- The format that the options ask for is refused. -/
  | format (error : FrameError)
  /-- A file could not be read. -/
  | file (path : String) (failure : FileFailure)
  /-- No buffer has room for the greatest frame. -/
  | bufferTooLarge
deriving DecidableEq, Repr

namespace ScanFailure

/-- The wording of the failure. -/
def message : ScanFailure → String
  | usage error => error.message
  | format error => error.message
  | file path failure => path ++ ": " ++ failure.action
  | bufferTooLarge => "capacity overflow"

/-- What has led to the failure, where that is said apart. -/
def cause? : ScanFailure → Option String
  | usage error => error.cause?
  | format _ => none
  | file _ failure => some failure.message
  | bufferTooLarge => none

/-- The lines that tell of the failure. Of a crash, only the wording is kept, and not the place of
it. -/
def lines : ScanFailure → List String
  | bufferTooLarge => [message bufferTooLarge]
  | f =>
    ("Error: " ++ f.message) ::
      match f.cause? with
      | none => []
      | some cause => ["", "Caused by:", "    " ++ cause]

/-- The exit status, that of a crash if there is no buffer. -/
def status : ScanFailure → Nat
  | bufferTooLarge => 101
  | _ => 1

end ScanFailure

/-! ### The whole run -/

/-- **What a run of the scanner leaves behind.** -/
structure ScanOutcome where
  /-- The exit status. -/
  status : Nat
  /-- The lines on the standard output. -/
  output : List String := []
  /-- The lines on the standard error. -/
  errors : List String := []
  /-- The lines of the log. -/
  log : List String := []
deriving DecidableEq, Repr

namespace ScanOutcome

/-- The name of the standard input in reports. -/
def stdinName : String := "<stdin>"

/-- The state of a new receiver. -/
def receiver (f : FrameFinder) : Except ScanFailure StreamState :=
  match f.receiver? with
  | some state => .ok state
  | none => .error .bufferTooLarge

/-- The report on one file. When it has been opened, and before it is read, a receiver is made for
it. -/
def scanFile (f : FrameFinder) (path : String) (content : Except FileFailure (List UInt8)) :
    Except ScanFailure ScanReport :=
  match content with
  | .ok input => do
    let state ← receiver f
    return .ofInput f state path input
  | .error failure => do
    if failure.isOpened then
      let _ ← receiver f
    .error (.file path failure)

/-- The report on the files in their order, up to the first that cannot be read. -/
def scanFiles (f : FrameFinder) (readFile : String → Except FileFailure (List UInt8))
    (report : ScanReport) : List String → ScanReport × Option ScanFailure
  | [] => (report, none)
  | path :: paths =>
    match scanFile f path (readFile path) with
    | .ok next => scanFiles f readFile (report ++ next) paths
    | .error failure => (report, some failure)

/-- The outcome for a report and the failure that ended it, if one did. -/
def ofReport (verbose : Bool) (report : ScanReport) (failure? : Option ScanFailure) :
    ScanOutcome :=
  let log := if verbose then report.discarded else []
  match failure? with
  | some failure =>
    { status := failure.status, output := report.lines, errors := failure.lines, log }
  | none =>
    { status := if 0 < report.invalid then 1 else 0
      output := report.lines
      errors := [report.summary]
      log }

/-- The outcome of a run with the given options. -/
def ofOptions (o : ScanOptions) (stdin : List UInt8)
    (readFile : String → Except FileFailure (List UInt8)) : ScanOutcome :=
  match FrameFinder.ofFormat o.format with
  | .error e => { status := 1, errors := (ScanFailure.format e).lines }
  | .ok f =>
    let (report, failure?) :=
      if o.files.isEmpty then scanFiles f (fun _ => .ok stdin) {} [stdinName]
      else scanFiles f readFile {} o.files
    ofReport o.verbose report failure?

/-- **The outcome of a run of the frame scanner** on a command line. The standard input is scanned
if no files are named. -/
def run (args : List String) (stdin : List UInt8)
    (readFile : String → Except FileFailure (List UInt8)) : ScanOutcome :=
  match ScanOptions.parse args with
  | .error e => { status := 1, errors := (ScanFailure.usage e).lines }
  | .ok o => ofOptions o stdin readFile

end ScanOutcome

end WireCodec
