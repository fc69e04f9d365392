import WireCodec.CompactFloat
import WireCodec.Decimal.Shortest

/-!
# What can go wrong with a field

Writing a field fails only when it is asked for something that does not exist: a count of bytes
that no integer field has, or a compact format of another width than the field. Reading fails for
these reasons too, at the end of the input, and on a floating point number that is not regular.
-/

namespace WireCodec

/-- **Why a field was not written or read.** -/
inductive FieldError
  /-- There are fewer bytes left than the field has. -/
  | endOfInput
  /-- There is no compact format with this many significand bits. -/
  | significandBits (width : CompactWidth) (bits : Nat)
  /-- The compact format is not as wide as the field. -/
  | formatWidth (expected got : CompactWidth)
  /-- No integer field has this many bytes. -/
  | byteCount (count : Nat)
  /-- The floating point number that was read is an infinity, a NaN or has no implied one. -/
  | irregularFloat (value : FloatValue)
deriving DecidableEq, Repr

/-- The wording of the error. -/
def FieldError.message : FieldError → String
  | endOfInput => "IO: failed to fill whole buffer"
  | significandBits width bits =>
    s!"Invalid significand width {bits} for a {width.bits}-bit float"
  | formatWidth expected got =>
    s!"Float format is {got.bits} bits wide, expected {expected.bits}"
  | byteCount count => s!"Invalid field width: {count} bytes (expected 1..=8)"
  | irregularFloat value => "Invalid float on the wire: " ++ String.ofList value.text

/-- The compact format of the given width with the given number of significand bits. -/
def CompactFormat.ofSignificandBits (width : CompactWidth) (bits : Nat) :
    Except FieldError CompactFormat :=
  match CompactFormat.of? width bits with
  | some format => .ok format
  | none => .error (.significandBits width bits)

end WireCodec
