import WireCodec.Checksum
import WireCodec.Proofs.Checksum.Register
import WireCodec.Proofs.Checksum.Sums

/-!
# Byte strings that check out

A byte string with its checksum field behind it checks out (`WireCodec.Checksum.verify_append`): the
field holds the whole checksum, so reading it back loses nothing.

What remains unnoticed when such a byte string is altered depends on the checksum. A cyclic
redundancy check notices every burst of at most four bytes
(`WireCodec.Checksum.verify_eq_false_of_isBurst`), also one that reaches into the field: a byte
string checks out exactly when the check of the whole of it is zero. A Fletcher checksum notices
every single byte (`WireCodec.Checksum.verify_fletcher16_iff_of_byte`), unless it is one before the
field and a `0` became `255` or the other way round.
-/

namespace WireCodec

/-- Bytes are known from the number that they spell. -/
theorem ByteOrder.eq_of_decode_eq {order : ByteOrder} {first second : List UInt8}
    (hlength : first.length = second.length) (h : order.decode first = order.decode second) :
    first = second := by
  rw [← order.encode_decode first, ← order.encode_decode second, hlength, h]

namespace Checksum

variable (c : Checksum)

/-- A checksum fits into its field. -/
theorem compute_lt (data : List UInt8) : (c.compute data).toNat < 256 ^ c.fieldLength := by
  cases c with
  | crc32 => exact (Crc32.compute data).toNat_lt
  | fletcher16 =>
    have h := (Fletcher16.compute data).toNat_lt
    simpa [compute, fieldLength] using h

/-- **A checksum field is right** when it spells the checksum of the bytes before it. -/
theorem verify_append_iff {covered field : List UInt8} (h : field.length = c.fieldLength) :
    c.verify (covered ++ field) = true ↔
      (c.compute covered).toNat = c.byteOrder.decode field := by
  have hlength : (covered ++ field).length = covered.length + c.fieldLength := by
    rw [List.length_append, h]
  have hcovered : (covered ++ field).length - c.fieldLength = covered.length := by omega
  have hread : c.read? field = some (UInt32.ofNat (c.byteOrder.decode field)) := by
    rw [read?, if_pos (Nat.le_of_eq h.symm), List.take_of_length_le (Nat.le_of_eq h)]
  have hword : c.byteOrder.decode field < 2 ^ 32 := by
    have hlt := c.byteOrder.decode_lt field
    have hpow : 256 ^ field.length ≤ 256 ^ 4 := by
      rw [h]
      exact Nat.pow_le_pow_right (by decide) (by cases c <;> decide)
    omega
  rw [verify, if_pos (by omega)]
  simp only [hcovered, List.drop_left, List.take_left, hread, beq_iff_eq, Option.some.injEq]
  rw [← UInt32.toNat_inj, UInt32.toNat_ofNat', Nat.mod_eq_of_lt hword]
  exact eq_comm

/-- **A byte string with its checksum field behind it checks out.** -/
theorem verify_append (data : List UInt8) : c.verify (c.append data) = true := by
  rw [append, c.verify_append_iff (c.length_field data), field, ByteOrder.decode_encode,
    Nat.mod_eq_of_lt (c.compute_lt data)]

/-- A byte string that is long enough ends in a checksum field. -/
theorem exists_eq_append_field {frame : List UInt8} (h : c.fieldLength ≤ frame.length) :
    ∃ covered field, frame = covered ++ field ∧ field.length = c.fieldLength :=
  ⟨frame.take (frame.length - c.fieldLength), frame.drop (frame.length - c.fieldLength),
    (List.take_append_drop _ _).symm, by rw [List.length_drop]; omega⟩

/-! ### Bursts and the cyclic redundancy check -/

/-- **The check of the whole of a byte string is zero** exactly when the byte string checks out. -/
theorem verify_crc32_iff {frame : List UInt8} (h : crc32.fieldLength ≤ frame.length) :
    crc32.verify frame = true ↔ Crc32.compute frame = 0 := by
  obtain ⟨covered, field, rfl, hfield⟩ := crc32.exists_eq_append_field h
  have hfield' : field.length = 4 := hfield
  have hlt : ofLittleEndian field < 2 ^ 32 := by
    have := ofLittleEndian_lt field
    rwa [hfield'] at this
  have hcompute : Crc32.compute (covered ++ field) =
      Crc32.steps 32 (Crc32.compute covered ^^^ UInt32.ofNat (ofLittleEndian field)) := by
    rw [Crc32.compute, Crc32.update_append, Crc32.update_eq_steps _ (Nat.le_of_eq hfield'), hfield']
    rfl
  have hword : (Crc32.compute covered).toNat = ofLittleEndian field ↔
      Crc32.compute covered = UInt32.ofNat (ofLittleEndian field) := by
    rw [← UInt32.toNat_inj, UInt32.toNat_ofNat', Nat.mod_eq_of_lt hlt]
  refine (crc32.verify_append_iff hfield).trans (hword.trans ?_)
  rw [hcompute]
  constructor
  · intro heq
    rw [heq, UInt32.xor_self, Crc32.steps_zero]
  · intro hzero
    exact UInt32.xor_eq_zero_iff.mp (Crc32.eq_zero_of_steps hzero)

/-- **A burst is noticed**, wherever in the byte string it is. -/
theorem verify_eq_false_of_isBurst {frame altered : List UInt8}
    (h : crc32.verify frame = true) (hfield : crc32.fieldLength ≤ frame.length)
    (hlength : altered.length = frame.length) (hne : altered ≠ frame)
    (hburst : Crc32.IsBurst frame altered) : crc32.verify altered = false := by
  rw [Bool.eq_false_iff]
  intro haltered
  have hzero := (verify_crc32_iff hfield).mp h
  have hzero' := (verify_crc32_iff (by omega)).mp haltered
  exact Crc32.compute_ne_of_isBurst hlength.symm hne.symm hburst (hzero.trans hzero'.symm)

/-! ### Single bytes and the Fletcher checksum -/

/-- Different bytes are equal modulo `255` only if they are `0` and `255`. -/
theorem modEq_255_iff {x y : UInt8} (hne : x ≠ y) :
    x.toNat ≡ y.toNat [MOD 255] ↔ x = 0 ∧ y = 255 ∨ x = 255 ∧ y = 0 := by
  have hx := x.toNat_lt
  have hy := y.toNat_lt
  have hne' : x.toNat ≠ y.toNat := fun h => hne (UInt8.toNat.inj h)
  have hvalue : ∀ b n : UInt8, b = n ↔ b.toNat = n.toNat := fun _ _ => UInt8.toNat_inj.symm
  rw [hvalue x 0, hvalue y 255, hvalue x 255, hvalue y 0]
  change x.toNat % 255 = y.toNat % 255 ↔ x.toNat = 0 ∧ y.toNat = 255 ∨ x.toNat = 255 ∧ y.toNat = 0
  omega

/-- The checksums of two byte strings as numbers of the same size as those in the field. -/
theorem toNat_compute_fletcher16 (data : List UInt8) :
    (fletcher16.compute data).toNat = (Fletcher16.compute data).toNat :=
  UInt16.toNat_toUInt32 _

/-- **A single byte that is altered** is noticed, unless it is before the field and a `0` became
`255` or the other way round. -/
theorem verify_fletcher16_iff_of_byte {before behind : List UInt8} {x y : UInt8}
    (h : fletcher16.verify (before ++ x :: behind) = true)
    (hfield : fletcher16.fieldLength ≤ (before ++ x :: behind).length) (hne : x ≠ y) :
    fletcher16.verify (before ++ y :: behind) = true ↔
      fletcher16.fieldLength ≤ behind.length ∧ (x = 0 ∧ y = 255 ∨ x = 255 ∧ y = 0) := by
  by_cases hcovered : fletcher16.fieldLength ≤ behind.length
  · obtain ⟨rest, field, rfl, hlength⟩ := fletcher16.exists_eq_append_field hcovered
    have hsplit : ∀ b : UInt8, before ++ b :: (rest ++ field) = (before ++ b :: rest) ++ field :=
      fun b => by rw [List.append_assoc, List.cons_append]
    rw [hsplit] at h ⊢
    rw [fletcher16.verify_append_iff hlength] at h ⊢
    rw [← h, toNat_compute_fletcher16, toNat_compute_fletcher16, UInt16.toNat_inj, eq_comm,
      Fletcher16.compute_append_cons_iff, modEq_255_iff hne]
    exact (and_iff_right hcovered).symm
  · -- The byte is one of the field, whose number becomes another one.
    obtain ⟨covered, start, rfl, hstart⟩ :
        ∃ covered start, before = covered ++ start ∧
          start.length + 1 + behind.length = fletcher16.fieldLength := by
      rw [List.length_append, List.length_cons] at hfield
      have hlast := before.length_drop
        (i := before.length + 1 + behind.length - fletcher16.fieldLength)
      exact ⟨_, _, (List.take_append_drop _ before).symm, by rw [hlast]; omega⟩
    have hlength (b : UInt8) : (start ++ b :: behind).length = fletcher16.fieldLength := by
      rw [List.length_append, List.length_cons]
      omega
    rw [List.append_assoc] at h ⊢
    rw [fletcher16.verify_append_iff (hlength _)] at h ⊢
    have hother : start ++ x :: behind ≠ start ++ y :: behind := fun heq =>
      hne (List.cons.inj (List.append_cancel_left heq)).1
    constructor
    · intro haltered
      exact absurd (ByteOrder.eq_of_decode_eq ((hlength x).trans (hlength y).symm)
        (h.symm.trans haltered)) hother
    · rintro ⟨hin, -⟩
      exact absurd hin hcovered

end Checksum

end WireCodec
