import WireCodec.FrameScan.Report

/-!
# The frame scanner as a program

Everything is decided by `WireCodec.ScanOutcome.run`; here the inputs are read before it and its
lines are written after it.
-/

namespace WireCodec

/-- All bytes that are left in a stream. -/
partial def readAll (stream : IO.FS.Stream) (before : List (List UInt8)) : IO (List UInt8) := do
  let piece ← stream.read 65536
  if piece.isEmpty then return before.reverse.flatten else readAll stream (piece.toList :: before)

/-- The failure behind an error of the system. -/
def FileFailure.ofError : IO.Error → FileFailure
  | .noFileOrDirectory _ _ _ => notFound
  | .inappropriateType _ 20 _ => notADirectory
  | .inappropriateType _ 21 _ => isDirectory
  | error => other (toString error)

/-- The content of a file. -/
def readFile (path : String) : IO (Except FileFailure (List UInt8)) := do
  match ← (IO.FS.readBinFile path).toBaseIO with
  | .ok bytes => return .ok bytes.toList
  | .error error => return .error (.ofError error)

end WireCodec

open WireCodec in
/-- The program. -/
def main (args : List String) : IO UInt32 := do
  let files := (ScanOptions.parse args).toOption.map ScanOptions.files
  let stdin ← if files = some [] then readAll (← IO.getStdin) [] else pure []
  let contents ← (files.getD []).mapM fun path => return (path, ← readFile path)
  let outcome := ScanOutcome.run args stdin fun path =>
    (contents.lookup path).getD (.error .notFound)
  outcome.output.forM IO.println
  outcome.log.forM IO.eprintln
  outcome.errors.forM IO.eprintln
  return UInt32.ofNat outcome.status
