import WireCodec.Proofs.Frame.Access
import WireCodec.Proofs.Frame.Encode

/-!
# Frames and their fields

Taking a frame apart and putting one together are inverse to each other, but for two things that
only one of them looks at: `WireCodec.FrameFormat.parse?` reads the checksum field without comparing
it, and it does not know the greatest size. So a byte string is an encoded frame exactly when it can
be taken apart, checks out and is not too large
(`WireCodec.FrameFormat.exists_encode_iff_parse?`).

Everything comes from what a byte string with fields is
(`WireCodec.FrameFormat.parse?_eq_some_iff`): the header that declares the length of the body, the
body, and a checksum field that may hold anything.
-/

namespace WireCodec

namespace FrameFormat

variable {f : FrameFormat} {packetType : UInt8} {body frame : List UInt8}

/-! ### Taking frames apart -/

/-- **The start of a frame is the header that declares its length.** -/
theorem eq_header_append {rest : List UInt8} {n : Nat} (hn : f.bodyLength? frame = some n)
    (hframe : frame = f.sync0 :: f.sync1 :: packetType :: rest) :
    frame = f.header packetType n ++ frame.drop f.headerLength := by
  have hheader := f.headerLength_le_of_bodyLength? hn
  rw [bodyLength?, if_pos hheader] at hn
  subst hframe
  rw [headerLength, List.length_cons, List.length_cons, List.length_cons] at hheader
  have hfield : (rest.take f.lengthWidth.bytes).length = f.lengthWidth.bytes :=
    List.length_take_of_le (by omega)
  have hspelled : littleEndian f.lengthWidth.bytes n = rest.take f.lengthWidth.bytes := by
    have h := littleEndian_ofLittleEndian (rest.take f.lengthWidth.bytes)
    rw [hfield] at h
    rw [← h]
    exact congrArg _ (Option.some.inj hn).symm
  rw [header, hspelled, headerLength, Nat.add_comm]
  simp only [List.drop_succ_cons, List.cons_append, List.take_append_drop]

/-- What a length field holds can be declared. -/
theorem le_maxBody_of_bodyLength? {n : Nat} (hn : f.bodyLength? frame = some n) :
    n ≤ f.lengthWidth.maxBody := by
  rw [bodyLength?, if_pos (f.headerLength_le_of_bodyLength? hn)] at hn
  have hlt := ofLittleEndian_lt ((frame.drop 3).take f.lengthWidth.bytes)
  have hpow := Nat.pow_le_pow_right (show 0 < 256 by decide)
    (List.length_take_le f.lengthWidth.bytes (frame.drop 3))
  have hmax : 256 ^ f.lengthWidth.bytes = f.lengthWidth.maxBody + 1 := by
    cases f.lengthWidth <;> rfl
  have := Option.some.inj hn
  omega

/-- **A byte string with fields**: the header that declares the length of the body, the body, and a
checksum field. -/
theorem parse?_eq_some_iff {fields : Frame} : f.parse? frame = some fields ↔
    fields.body.length ≤ f.lengthWidth.maxBody ∧
      ∃ field, field.length = f.checksum.fieldLength ∧
        fields.checksum = UInt32.ofNat (f.checksum.byteOrder.decode field) ∧
        frame = f.header fields.packetType fields.body.length ++ fields.body ++ field := by
  constructor
  · intro h
    obtain ⟨n, hn⟩ : ∃ n, f.bodyLength? frame = some n := by
      refine Option.ne_none_iff_exists'.mp fun hnone => ?_
      unfold parse? at h
      simp [hnone] at h
    obtain ⟨sync0, sync1, packetType, rest, hframe⟩ := f.exists_eq_cons_of_bodyLength? hn
    rw [f.parse?_of_bodyLength? hn hframe] at h
    split at h
    case isFalse => simp at h
    case isTrue hparts =>
      -- What is behind the header is the body and then the field, cut at the declared length.
      obtain ⟨hlength, rfl, rfl⟩ := hparts
      have hfield := f.length_drop_of_length hlength
      rw [overhead] at hlength
      have hbody : ((frame.drop f.headerLength).take n).length = n :=
        List.length_take_of_le (by rw [List.length_drop]; omega)
      rw [f.checksum.read?_eq hfield] at h
      obtain rfl := Option.some.inj h
      refine ⟨hbody.trans_le (le_maxBody_of_bodyLength? hn), _, hfield, rfl, ?_⟩
      rw [hbody, List.append_assoc, List.take_append_drop]
      exact eq_header_append hn hframe
  · rintro ⟨hlen, field, hfield, hchecksum, rfl⟩
    have hn : f.bodyLength? (f.header fields.packetType fields.body.length ++
        (fields.body ++ field)) = some fields.body.length := bodyLength?_header_append hlen _
    have hrest : (f.header fields.packetType fields.body.length ++
        (fields.body ++ field)).drop f.headerLength = fields.body ++ field :=
      List.drop_left' (length_header _ _ _)
    rw [List.append_assoc, f.parse?_of_bodyLength? hn rfl, hrest, List.drop_left, List.take_left,
      f.checksum.read?_eq hfield, ← hchecksum, if_pos]
    · rfl
    · refine ⟨?_, rfl, rfl⟩
      rw [List.length_append, length_header, List.length_append, hfield, overhead]
      omega

/-- A byte string that starts with the sync bytes and is as long as it declares has fields. -/
theorem isSome_parse? {n : Nat} (hsync : ∃ rest, frame = f.sync0 :: f.sync1 :: rest)
    (hn : f.bodyLength? frame = some n) (hlength : frame.length = n + f.overhead) :
    (f.parse? frame).isSome := by
  obtain ⟨sync0, sync1, packetType, rest, hframe⟩ := f.exists_eq_cons_of_bodyLength? hn
  obtain ⟨rest', hsync⟩ := hsync
  obtain ⟨rfl, rfl, -⟩ : sync0 = f.sync0 ∧ sync1 = f.sync1 ∧ packetType :: rest = rest' := by
    simpa using hframe.symm.trans hsync
  rw [Nat.add_comm] at hlength
  rw [f.parse?_of_bodyLength? hn hframe, if_pos ⟨hlength, rfl, rfl⟩,
    f.checksum.read?_eq (f.length_drop_of_length hlength)]
  rfl

/-! ### Putting frames together -/

/-- **The fields of an encoded frame** are those that it was made of, with the checksum over all
bytes before the checksum field. -/
theorem parse?_of_encode (h : f.encode packetType body = .ok frame) :
    f.parse? frame = some ⟨packetType, body,
      f.checksum.compute (frame.take (frame.length - f.checksum.fieldLength))⟩ := by
  obtain ⟨hlen, -, rfl⟩ := encode_eq_ok_iff.mp h
  have hcovered : (f.checksum.append (f.header packetType body.length ++ body)).take
      ((f.checksum.append (f.header packetType body.length ++ body)).length -
        f.checksum.fieldLength) = f.header packetType body.length ++ body := by
    rw [Checksum.length_append, Nat.add_sub_cancel, Checksum.append, List.take_left]
  rw [hcovered, parse?_eq_some_iff]
  refine ⟨hlen, _, f.checksum.length_field _, ?_, rfl⟩
  rw [Checksum.field, ByteOrder.decode_encode, Nat.mod_eq_of_lt (f.checksum.compute_lt _),
    UInt32.ofNat_toNat]

/-- **A byte string that has fields, checks out and is not too large was encoded** from its
fields. -/
theorem encode_of_parse? {fields : Frame} (h : f.parse? frame = some fields)
    (hverify : f.checksum.verify frame = true) (hmax : frame.length ≤ f.maxSize) :
    f.encode fields.packetType fields.body = .ok frame := by
  obtain ⟨hlen, field, hfield, -, rfl⟩ := parse?_eq_some_iff.mp h
  -- The field spells the checksum, so it is the one that encoding appends.
  have hvalue := (f.checksum.verify_append_iff hfield).mp hverify
  have hspelled := f.checksum.byteOrder.encode_decode field
  rw [hfield, ← hvalue] at hspelled
  refine encode_eq_ok_iff.mpr ⟨hlen, ?_, ?_⟩
  · rw [List.length_append, List.length_append, length_header, hfield] at hmax
    rw [overhead]
    omega
  · rw [Checksum.append, Checksum.field, hspelled]

/-- **A frame is refused** exactly when the length field cannot hold the length of its body or it
is larger than the format allows. -/
theorem encode_eq_error_iff :
    (∃ length max, f.encode packetType body = .error (.tooLarge length max)) ↔
      f.lengthWidth.maxBody < body.length ∨ f.maxSize < f.overhead + body.length := by
  unfold encode
  by_cases hlen : f.lengthWidth.maxBody < body.length
  · simp [hlen]
  by_cases hmax : f.maxSize < f.overhead + body.length
  · simp [hlen, hmax]
  · simp [hlen, hmax]

/-- **Encoded frames are the byte strings that can be taken apart, check out and are not too
large.** The fields of an encoded frame are what it was made of and the checksum over the rest of
it; a frame is refused exactly when the length field or the greatest size is too small for it; and
no byte string is taken apart with an access behind its end. -/
theorem exists_encode_iff_parse? (f : FrameFormat) (frame : List UInt8) :
    ((∃ packetType body, f.encode packetType body = .ok frame) ↔
        (f.parse? frame).isSome ∧ f.checksum.verify frame = true ∧ frame.length ≤ f.maxSize) ∧
      (∀ packetType body, f.encode packetType body = .ok frame →
        f.parse? frame = some ⟨packetType, body,
          f.checksum.compute (frame.take (frame.length - f.checksum.fieldLength))⟩) ∧
      (∀ packetType body,
        (∃ length max, f.encode packetType body = .error (.tooLarge length max)) ↔
          f.lengthWidth.maxBody < body.length ∨ f.maxSize < f.overhead + body.length) ∧
      f.split frame = .ok (f.parse? frame) := by
  refine ⟨⟨?_, ?_⟩, fun _ _ => parse?_of_encode, fun _ _ => encode_eq_error_iff, f.split_eq frame⟩
  · rintro ⟨packetType, body, hframe⟩
    rw [parse?_of_encode hframe]
    exact ⟨rfl, verify_of_encode hframe, length_le_of_encode hframe⟩
  · rintro ⟨hparse, hverify, hmax⟩
    obtain ⟨fields, hfields⟩ := Option.isSome_iff_exists.mp hparse
    exact ⟨_, _, encode_of_parse? hfields hverify hmax⟩

end FrameFormat

end WireCodec
