import WireCodec.Frame.Format
import WireCodec.Text.Integer
import WireCodec.Text.Quoted

/-!
# Options of the frame scanner

The command line holds options and file names in any order. Each option counts once; what is left
when the options have been taken out are the file names, and a second occurrence of an option is
one of them. The value of an option is the argument behind it, whatever it is.

Options are taken out one after another, and the first that is at fault is reported
(`WireCodec.ScanOptions.parse`). `WireCodec.ScanOptions.format` is the format that they ask for.
-/

namespace WireCodec

/-- **What is wrong with the options.** -/
inductive UsageError
  /-- There is nothing behind an option that needs a value. -/
  | valueMissing (option : String)
  /-- The sync bytes are not four bytes of text. -/
  | syncLength (value : String)
  /-- The sync bytes are not hexadecimal. -/
  | syncDigits (value : String) (cause : Text.IntegerError)
  /-- The greatest frame size is no number. -/
  | maxSize (value : String) (cause : Text.IntegerError)
deriving DecidableEq, Repr

/-- The wording of the error. -/
def UsageError.message : UsageError → String
  | valueMissing option => option ++ " needs a value"
  | syncLength value => "--sync expects four hex digits, got " ++ Text.quote value
  | syncDigits value cause => "--sync " ++ Text.quote value ++ ": " ++ cause.message
  | maxSize value _ => "--max " ++ Text.quote value

/-- What has led to the error, where that is said apart. -/
def UsageError.cause? : UsageError → Option String
  | maxSize _ cause => some cause.message
  | _ => none

/-- **The command line of the frame scanner.** -/
structure ScanOptions where
  /-- Say of each frame with a wrong checksum that it was thrown away. -/
  verbose : Bool
  /-- The checksum is Fletcher's. -/
  fletcher : Bool
  /-- The length field has two bytes. -/
  wideLength : Bool
  /-- The sync bytes. -/
  sync : UInt8 × UInt8
  /-- The greatest size of a frame, if it is not to be that of the longest body. -/
  maxSize? : Option Nat
  /-- The files to scan. -/
  files : List String
deriving DecidableEq, Repr

namespace ScanOptions

/-- Whether one of the names is among the arguments, and the arguments without its first
occurrence. -/
def removeFlag (names : List String) (args : List String) : Bool × List String :=
  (args.any names.contains, args.eraseP names.contains)

/-- The argument behind the first occurrence of the name, and the arguments without the two. -/
def removeValue (name : String) : List String → Except UsageError (Option String × List String)
  | [] => .ok (none, [])
  | arg :: args =>
    if arg = name then
      match args with
      | [] => .error (.valueMissing name)
      | value :: args => .ok (some value, args)
    else
      match removeValue name args with
      | .ok (value?, args) => .ok (value?, arg :: args)
      | .error e => .error e

/-- The sync bytes when no others are asked for. -/
def defaultSync : UInt8 × UInt8 := (0xA5, 0x5A)

/-- **The two sync bytes that a text of four bytes spells** as one hexadecimal number. -/
def readSync (value : String) : Except UsageError (UInt8 × UInt8) :=
  if value.utf8ByteSize ≠ 4 then .error (.syncLength value)
  else
    match Text.parseNatural 16 (2 ^ 16 - 1) value.toList with
    | .ok n => .ok (UInt8.ofNat (n / 256), UInt8.ofNat n)
    | .error cause => .error (.syncDigits value cause)

/-- The greatest size of a frame: any number that fits into a word. -/
def readMaxSize (value : String) : Except UsageError Nat :=
  match Text.parseNatural 10 (2 ^ 64 - 1) value.toList with
  | .ok n => .ok n
  | .error cause => .error (.maxSize value cause)

/-- **The options of a command line.** -/
def parse (args : List String) : Except UsageError ScanOptions := do
  let (verbose, args) := removeFlag ["--verbose", "-v"] args
  let (fletcher, args) := removeFlag ["--fletcher"] args
  let (wideLength, args) := removeFlag ["--len16"] args
  let (sync?, args) ← removeValue "--sync" args
  let sync ←
    match sync? with
    | some value => readSync value
    | none => .ok defaultSync
  let (maxSize?, files) ← removeValue "--max" args
  let maxSize? ←
    match maxSize? with
    | some value => some <$> readMaxSize value
    | none => .ok none
  return { verbose, fletcher, wideLength, sync, maxSize?, files }

/-- **The format of the frames.** A greatest size that is asked for holds whatever the other
options are. -/
def format (o : ScanOptions) : FrameFormat :=
  let f := FrameFormat.ofSync o.sync.1 o.sync.2
  let f := if o.wideLength then f.withLengthWidth .two else f
  let f := if o.fletcher then f.withChecksum .fletcher16 else f
  match o.maxSize? with
  | some size => f.withMaxSize size
  | none => f

end ScanOptions

end WireCodec
