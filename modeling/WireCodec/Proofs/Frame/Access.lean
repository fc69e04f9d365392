import WireCodec.Proofs.Checksum.Field
import WireCodec.Proofs.Frame.Reports

/-!
# Frames read at their places

`WireCodec.FrameFormat.parse?` and `WireCodec.Checksum.verify` take the front of a byte string off
or drop it, which is possible however short the byte string is. A program reads at places instead,
and fails when a place is behind the end. This file reads a frame that way: every access is one to
a place (`WireCodec.byteAt`, `WireCodec.slice`) and says so when it is out of range.

None is, on any byte string: `WireCodec.FrameFormat.split` is `WireCodec.FrameFormat.parse?`
(`WireCodec.FrameFormat.split_eq`), and `WireCodec.Checksum.check` is `WireCodec.Checksum.verify`
(`WireCodec.Checksum.check_eq`). What keeps the accesses in range is that the length is looked at
first: that of the header before the declared length is read, and that of the frame before its
parts are.
-/

namespace WireCodec

/-! ### Accesses -/

/-- **An access behind the end of a byte string.** -/
structure OutOfRange where
  /-- How many bytes there have to be. -/
  needed : Nat
  /-- How many there are. -/
  length : Nat
deriving DecidableEq, Repr

/-- The byte at a place. -/
def byteAt (bytes : List UInt8) (place : Nat) : Except OutOfRange UInt8 :=
  match bytes[place]? with
  | some b => .ok b
  | none => .error ⟨place + 1, bytes.length⟩

/-- The bytes from one place up to another one. -/
def slice (bytes : List UInt8) (start stop : Nat) : Except OutOfRange (List UInt8) :=
  if start ≤ stop ∧ stop ≤ bytes.length then .ok ((bytes.drop start).take (stop - start))
  else .error ⟨stop, bytes.length⟩

theorem byteAt_eq {bytes : List UInt8} {place : Nat} {b : UInt8} (h : bytes[place]? = some b) :
    byteAt bytes place = .ok b := by
  rw [byteAt, h]

theorem slice_eq {bytes : List UInt8} {start stop : Nat} (h : start ≤ stop)
    (hstop : stop ≤ bytes.length) :
    slice bytes start stop = .ok ((bytes.drop start).take (stop - start)) :=
  if_pos ⟨h, hstop⟩

/-- The bytes from a place to the end. -/
theorem slice_length {bytes : List UInt8} {start : Nat} (h : start ≤ bytes.length) :
    slice bytes start bytes.length = .ok (bytes.drop start) := by
  rw [slice_eq h (Nat.le_refl _), List.take_of_length_le (Nat.le_of_eq List.length_drop)]

/-! ### Checksums -/

namespace Checksum

variable (c : Checksum)

/-- The value of the checksum field at the start of a byte string. -/
def readField (field : List UInt8) : Except OutOfRange UInt32 :=
  match c.read? field with
  | some value => .ok value
  | none => .error ⟨c.fieldLength, field.length⟩

/-- Whether a frame ends in the checksum field over the bytes before it. -/
def check (frame : List UInt8) : Except OutOfRange Bool := do
  if frame.length < c.fieldLength then
    return false
  else
    let covered ← slice frame 0 (frame.length - c.fieldLength)
    let field ← slice frame (frame.length - c.fieldLength) frame.length
    return c.compute covered == (← c.readField field)

/-- A checksum field that is there is read. -/
theorem read?_eq {field : List UInt8} (h : field.length = c.fieldLength) :
    c.read? field = some (UInt32.ofNat (c.byteOrder.decode field)) := by
  rw [read?, if_pos (Nat.le_of_eq h.symm), List.take_of_length_le (Nat.le_of_eq h)]

theorem readField_eq {field : List UInt8} (h : field.length = c.fieldLength) :
    c.readField field = .ok (UInt32.ofNat (c.byteOrder.decode field)) := by
  rw [readField, c.read?_eq h]

/-- **A frame is checked without an access behind its end**, however short it is. -/
theorem check_eq (frame : List UInt8) : c.check frame = .ok (c.verify frame) := by
  unfold check verify
  by_cases hshort : frame.length < c.fieldLength
  · rw [if_pos hshort, if_neg (Nat.not_le.mpr hshort)]
    rfl
  · have hlong : c.fieldLength ≤ frame.length := Nat.le_of_not_lt hshort
    have hfield : (frame.drop (frame.length - c.fieldLength)).length = c.fieldLength := by
      rw [List.length_drop]
      omega
    rw [if_neg hshort, if_pos hlong, slice_eq (Nat.zero_le _) (Nat.sub_le _ _),
      slice_length (Nat.sub_le _ _)]
    simp only [bind, Except.bind, pure, Except.pure, List.drop_zero, Nat.sub_zero,
      c.readField_eq hfield, c.read?_eq hfield, Option.some_beq_some]
    rw [BEq.comm]

end Checksum

/-! ### Frames -/

namespace FrameFormat

variable (f : FrameFormat)

/-- The length of the body that the start of a frame declares, once the header is complete. -/
def lengthAt (frame : List UInt8) : Except OutOfRange (Option Nat) := do
  if frame.length < f.headerLength then
    return none
  else
    match f.lengthWidth with
    | .one => return some (← byteAt frame 3).toNat
    | .two => return some (ofLittleEndian (← slice frame 3 5))

/-- **The fields of a frame**, if it starts with the sync bytes and is as long as it declares. -/
def split (frame : List UInt8) : Except OutOfRange (Option Frame) := do
  match ← f.lengthAt frame with
  | none => return none
  | some bodyLength =>
    let start := f.headerLength
    let stop := start + bodyLength
    if frame.length ≠ stop + f.checksum.fieldLength then
      return none
    else if (← slice frame 0 2) ≠ [f.sync0, f.sync1] then
      return none
    else
      let packetType ← byteAt frame 2
      let body ← slice frame start stop
      let checksum ← f.checksum.readField (← slice frame stop frame.length)
      return some ⟨packetType, body, checksum⟩

/-- **The declared length is read without an access behind the end**, because the header is complete
by then. -/
theorem lengthAt_eq (frame : List UInt8) : f.lengthAt frame = .ok (f.bodyLength? frame) := by
  unfold lengthAt bodyLength?
  by_cases hshort : frame.length < f.headerLength
  · rw [if_pos hshort, if_neg (Nat.not_le.mpr hshort)]
    rfl
  · have hlong : f.headerLength ≤ frame.length := Nat.le_of_not_lt hshort
    rw [if_neg hshort, if_pos hlong]
    rw [headerLength] at hlong
    cases hwidth : f.lengthWidth with
    | one =>
      rw [hwidth] at hlong
      have hfield : (frame.drop 3).take 1 = [frame[3]] := by
        rw [List.drop_eq_getElem_cons hlong]
        rfl
      simp only [byteAt_eq (List.getElem?_eq_getElem hlong), bind, Except.bind, pure, Except.pure,
        LengthWidth.bytes, hfield, ofLittleEndian_cons, ofLittleEndian_nil, Nat.mul_zero,
        Nat.add_zero]
    | two =>
      rw [hwidth] at hlong
      have hslice : slice frame 3 5 = .ok ((frame.drop 3).take 2) := slice_eq (by decide) hlong
      simp only [hslice, bind, Except.bind, pure, Except.pure, LengthWidth.bytes]

/-- A complete header has its sync bytes and its type. -/
theorem exists_eq_cons_of_bodyLength? {frame : List UInt8} {n : Nat}
    (hn : f.bodyLength? frame = some n) :
    ∃ sync0 sync1 packetType rest, frame = sync0 :: sync1 :: packetType :: rest := by
  have hheader := f.headerLength_le_of_bodyLength? hn
  have htwo := f.two_lt_headerLength
  match frame, hheader with
  | sync0 :: sync1 :: packetType :: rest, _ => exact ⟨sync0, sync1, packetType, rest, rfl⟩
  | [], h => exact absurd (htwo.trans_le h) (by simp)
  | [_], h => exact absurd (htwo.trans_le h) (by simp)
  | [_, _], h => exact absurd (htwo.trans_le h) (by simp)

/-- The fields behind a complete header. -/
theorem parse?_of_bodyLength? {frame rest : List UInt8} {sync0 sync1 packetType : UInt8} {n : Nat}
    (hn : f.bodyLength? frame = some n) (hframe : frame = sync0 :: sync1 :: packetType :: rest) :
    f.parse? frame =
      if frame.length = f.overhead + n ∧ sync0 = f.sync0 ∧ sync1 = f.sync1 then
        (f.checksum.read? ((frame.drop f.headerLength).drop n)).map fun checksum =>
          ⟨packetType, (frame.drop f.headerLength).take n, checksum⟩
      else none := by
  subst hframe
  unfold parse?
  rw [hn]

/-- Behind the body, a frame that is as long as it declares has a checksum field. -/
theorem length_drop_of_length {frame : List UInt8} {n : Nat}
    (hlength : frame.length = f.overhead + n) :
    ((frame.drop f.headerLength).drop n).length = f.checksum.fieldLength := by
  rw [List.length_drop, List.length_drop, hlength, overhead]
  omega

/-- **A frame is taken apart without an access behind its end**, whatever the bytes are. -/
theorem split_eq (frame : List UInt8) : f.split frame = .ok (f.parse? frame) := by
  unfold split
  rw [lengthAt_eq]
  cases hn : f.bodyLength? frame with
  | none =>
    unfold parse?
    rw [hn]
    rfl
  | some n =>
    obtain ⟨sync0, sync1, packetType, rest, hframe⟩ := f.exists_eq_cons_of_bodyLength? hn
    have hheader := f.headerLength_le_of_bodyLength? hn
    have hslice : slice frame 0 2 = .ok [sync0, sync1] := by
      rw [hframe]
      exact slice_eq (Nat.zero_le 2) (by simp)
    have htype : byteAt frame 2 = .ok packetType := by
      rw [hframe]
      rfl
    have hoverhead : f.headerLength + n + f.checksum.fieldLength = f.overhead + n := by
      rw [overhead]
      omega
    rw [f.parse?_of_bodyLength? hn hframe]
    simp only [bind, Except.bind, pure, Except.pure, hslice, htype, hoverhead]
    -- The parts are read behind this comparison only, so each of them is in range.
    by_cases hlength : frame.length = f.overhead + n
    · have hbody : slice frame f.headerLength (f.headerLength + n) =
          .ok ((frame.drop f.headerLength).take n) := by
        rw [slice_eq (Nat.le_add_right _ _) (by omega), Nat.add_sub_cancel_left]
      have hrest : slice frame (f.headerLength + n) frame.length =
          .ok ((frame.drop f.headerLength).drop n) := by
        rw [slice_length (by omega), List.drop_drop]
      have hfield := f.length_drop_of_length hlength
      simp only [hbody, hrest, f.checksum.readField_eq hfield, f.checksum.read?_eq hfield]
      by_cases hsync : sync0 = f.sync0 ∧ sync1 = f.sync1
      · simp [hlength, hsync]
      · simp [hlength, hsync]
    · simp [hlength]

end FrameFormat

end WireCodec
