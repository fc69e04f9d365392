import WireCodec.Frame.Format
import WireCodec.Proofs.Checksum.Field

/-!
# What an encoded frame looks like

A byte string with its checksum field behind it checks out (`WireCodec.Checksum.verify_append`):
the field holds the whole checksum, so reading it back loses nothing. With that, a frame that
`WireCodec.FrameFormat.encode` has made starts with the sync bytes, declares the length of its
body, is exactly as long as it declares, is within the greatest size, and checks out; the length
field loses nothing either, because longer bodies are refused.
-/

namespace WireCodec

/-! ### Encoded frames -/

namespace FrameFormat

variable {f : FrameFormat} {packetType : UInt8} {body frame : List UInt8}

/-- The greatest length that can be declared fits into the length field. -/
theorem maxBody_lt (width : LengthWidth) : width.maxBody < 256 ^ width.bytes := by
  cases width <;> decide

/-- The header declares the length of the body. -/
theorem bodyLength?_header_append (hlen : body.length ≤ f.lengthWidth.maxBody) (rest : List UInt8) :
    f.bodyLength? (f.header packetType body.length ++ rest) = some body.length := by
  have hlt : body.length < 256 ^ f.lengthWidth.bytes :=
    Nat.lt_of_le_of_lt hlen (maxBody_lt f.lengthWidth)
  have hfield : ((f.header packetType body.length ++ rest).drop 3).take f.lengthWidth.bytes =
      littleEndian f.lengthWidth.bytes body.length := by
    rw [header, List.cons_append, List.cons_append, List.cons_append, List.drop_succ_cons,
      List.drop_succ_cons, List.drop_succ_cons, List.drop_zero,
      List.take_left' (length_littleEndian _ _)]
  rw [bodyLength?, if_pos (by rw [List.length_append, length_header]; omega), hfield,
    ofLittleEndian_littleEndian, Nat.mod_eq_of_lt hlt]

/-- **What an encoded frame is**, and when there is one. -/
theorem encode_eq_ok_iff : f.encode packetType body = .ok frame ↔
    body.length ≤ f.lengthWidth.maxBody ∧ f.overhead + body.length ≤ f.maxSize ∧
      frame = f.checksum.append (f.header packetType body.length ++ body) := by
  unfold encode
  by_cases hlen : f.lengthWidth.maxBody < body.length
  · simp only [if_pos hlen, reduceCtorEq, false_iff]
    omega
  by_cases hmax : f.maxSize < f.overhead + body.length
  · simp only [if_neg hlen, if_pos hmax, reduceCtorEq, false_iff]
    omega
  · simp only [if_neg hlen, if_neg hmax, Except.ok.injEq]
    constructor
    · rintro rfl
      exact ⟨by omega, by omega, rfl⟩
    · rintro ⟨-, -, rfl⟩
      rfl

/-- An encoded frame is as long as it has to be. -/
theorem length_of_encode (h : f.encode packetType body = .ok frame) :
    frame.length = body.length + f.overhead := by
  obtain ⟨-, -, rfl⟩ := encode_eq_ok_iff.mp h
  rw [Checksum.length_append, List.length_append, length_header, overhead]
  omega

/-- An encoded frame is within the greatest size. -/
theorem length_le_of_encode (h : f.encode packetType body = .ok frame) :
    frame.length ≤ f.maxSize := by
  have hlen := length_of_encode h
  obtain ⟨-, hmax, -⟩ := encode_eq_ok_iff.mp h
  omega

/-- An encoded frame starts with the sync bytes. -/
theorem exists_eq_sync_of_encode (h : f.encode packetType body = .ok frame) :
    ∃ rest, frame = f.sync0 :: f.sync1 :: rest := by
  obtain ⟨-, -, rfl⟩ := encode_eq_ok_iff.mp h
  exact ⟨_, rfl⟩

/-- An encoded frame declares the length of its body. -/
theorem bodyLength?_of_encode (h : f.encode packetType body = .ok frame) :
    f.bodyLength? frame = some body.length := by
  obtain ⟨hlen, -, rfl⟩ := encode_eq_ok_iff.mp h
  rw [Checksum.append, List.append_assoc, bodyLength?_header_append hlen]

/-- **An encoded frame checks out.** -/
theorem verify_of_encode (h : f.encode packetType body = .ok frame) :
    f.checksum.verify frame = true := by
  obtain ⟨-, -, rfl⟩ := encode_eq_ok_iff.mp h
  exact f.checksum.verify_append _

end FrameFormat

end WireCodec
