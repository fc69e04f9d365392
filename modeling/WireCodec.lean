import WireCodec.BitField
import WireCodec.BitField.CStatement
import WireCodec.BitField.Cursor
import WireCodec.ByteOrder
import WireCodec.Checksum
import WireCodec.CompactFloat
import WireCodec.Decimal.Shortest
import WireCodec.Expression.Flat
import WireCodec.Expression.Value
import WireCodec.Field.Reader
import WireCodec.Field.Writer
import WireCodec.Frame.Scan
import WireCodec.FrameScan.Report
import WireCodec.Length.Structure
import WireCodec.Main
import WireCodec.Number.Binary64
import WireCodec.ScaledInteger
import WireCodec.Proofs.Frame.Cut
import WireCodec.Proofs.Frame.Delivery
import WireCodec.Proofs.BitField.Bits
import WireCodec.Proofs.BitField.Sequence
import WireCodec.Proofs.BitField.Disjoint
import WireCodec.Proofs.CompactFloat.RoundTrip
import WireCodec.Proofs.Expression.Evaluation
import WireCodec.Proofs.Expression.Formula
import WireCodec.Proofs.Expression.Precedence
import WireCodec.Proofs.Expression.Spelling
import WireCodec.Proofs.Expression.Worth
import WireCodec.Proofs.Length.Folding
import WireCodec.Proofs.Length.Product
import WireCodec.Proofs.Length.Polynomial
import WireCodec.Proofs.Length.Layout
import WireCodec.Proofs.Frame.Offsets
import WireCodec.Proofs.Frame.Recovery
import WireCodec.Proofs.FrameScan.CommandLine
import WireCodec.Proofs.FrameScan.SyncBytes
import WireCodec.Proofs.FrameScan.Run
import WireCodec.Proofs.Checksum.Register
import WireCodec.Proofs.Frame.Alteration
import WireCodec.Proofs.CompactFloat.Range
import WireCodec.Proofs.Ieee.Magnitude
import WireCodec.Proofs.CompactFloat.Decoding
import WireCodec.Proofs.CompactFloat.Accuracy
import WireCodec.Proofs.CompactFloat.Monotone
import WireCodec.Proofs.Field.Record
import WireCodec.Proofs.BitField.CMachine
import WireCodec.Proofs.BitField.CText
import WireCodec.Proofs.BitField.CRefinement
import WireCodec.Proofs.BitField.Effects
import WireCodec.Proofs.CompactFloat.Words
import WireCodec.Proofs.Checksum.Division
import WireCodec.Proofs.Checksum.Order
import WireCodec.Proofs.Length.Exponents
import WireCodec.Proofs.Length.Constants
import WireCodec.Proofs.Field.Requests
import WireCodec.Proofs.BitField.Bytes
import WireCodec.Proofs.BitField.ByteLoops
import WireCodec.Proofs.ScaledInteger.TwosComplement
import WireCodec.Proofs.Ieee.Arithmetic
import WireCodec.Proofs.ScaledInteger.RoundTrip
import WireCodec.Proofs.Ieee.Repacking
import WireCodec.Proofs.Ieee.Integral
import WireCodec.Proofs.Length.NormalForm
import WireCodec.Proofs.Length.Places
