import WireCodec.Field.Reader
import WireCodec.Proofs.CompactFloat.Range

/-!
# Records

A **record** is a list of fields, written one after another and read in the same order. What comes
back for each field is known from the field alone (`WireCodec.WireField.outcome`): integers come
back up to the bytes they were written in, compact numbers as what they were rounded to, and
patterns as they are, unless they are not regular; then the reader answers an error, and goes on
with the next field all the same (`WireCodec.readRecord_writeRecord`).

That the fields do not get out of step comes from one fact about each of them: in front of its
bytes, the reader of its kind answers the outcome and stands behind these bytes
(`WireCodec.WireField.run_read`). Which bytes these are depends on the order of bytes by a reversal
only.
-/

namespace WireCodec

/-! ### Fields and their kinds -/

/-- **How many bytes an integer field has.** -/
structure ByteCount where
  /-- The number of bytes. -/
  count : Nat
  /-- There is a byte. -/
  one_le : 1 ≤ count
  /-- The integer is not wider than a word. -/
  le_eight : count ≤ 8
deriving DecidableEq, Repr

/-- **What a reader has to know about a field.** -/
inductive FieldKind
  /-- An unsigned integer. -/
  | unsigned (n : ByteCount)
  /-- A signed integer. -/
  | signed (n : ByteCount)
  /-- A compact number. -/
  | compact (format : CompactFormat)
  /-- A 32-bit pattern. -/
  | binary32
  /-- A 64-bit pattern. -/
  | binary64
deriving DecidableEq, Repr

/-- **A field of a record**: a value, and how it is written. -/
inductive WireField
  /-- An unsigned integer. -/
  | unsigned (value : UInt64) (n : ByteCount)
  /-- A signed integer. -/
  | signed (value : Int64) (n : ByteCount)
  /-- A number that is written as a compact one. -/
  | compact (value : Binary32) (format : CompactFormat)
  /-- A 32-bit pattern. -/
  | binary32 (value : Binary32)
  /-- A 64-bit pattern. -/
  | binary64 (value : Binary64)
deriving DecidableEq, Repr

/-- **What is read for a field.** -/
inductive FieldValue
  /-- An unsigned integer. -/
  | unsigned (value : UInt64)
  /-- A signed integer. -/
  | signed (value : Int64)
  /-- A 32-bit pattern, also for a compact number. -/
  | binary32 (value : Binary32)
  /-- A 64-bit pattern. -/
  | binary64 (value : Binary64)
deriving DecidableEq, Repr

namespace FieldKind

/-- The number of bytes of a field of this kind. -/
def size : FieldKind → Nat
  | unsigned n => n.count
  | signed n => n.count
  | compact format => format.width.bytes
  | binary32 => 4
  | binary64 => 8

/-- The reader of the fields of this kind. -/
def read (order : ByteOrder) : FieldKind → FieldReader FieldValue
  | unsigned n => return .unsigned (← FieldReader.unsigned order n.count)
  | signed n => return .signed (← FieldReader.signed order n.count)
  | compact format => return .binary32 (← FieldReader.compact format.width order format)
  | binary32 => return .binary32 (← FieldReader.binary32 order)
  | binary64 => return .binary64 (← FieldReader.binary64 order)

end FieldKind

namespace WireField

/-- The kind of the field. -/
def kind : WireField → FieldKind
  | unsigned _ n => .unsigned n
  | signed _ n => .signed n
  | compact _ format => .compact format
  | binary32 _ => .binary32
  | binary64 _ => .binary64

/-- Write the field behind `output`. -/
def write (order : ByteOrder) (output : List UInt8) :
    WireField → Except FieldError (List UInt8)
  | unsigned value n => FieldWriter.unsigned order output value n.count
  | signed value n => FieldWriter.signed order output value n.count
  | compact value format => FieldWriter.compact format.width order output value format
  | binary32 value => .ok (FieldWriter.binary32 order output value)
  | binary64 value => .ok (FieldWriter.binary64 order output value)

/-- **What is to be read for the field**: the value, or the error. An integer is cut to its bytes,
and a signed one is the integer nearest to zero that has these bytes, the negative one of two. -/
def outcome : WireField → Except FieldError FieldValue
  | unsigned value n => .ok (.unsigned (UInt64.ofNat (value.toNat % 2 ^ (8 * n.count))))
  | signed value n => .ok (.signed (Int64.ofInt (value.toInt.bmod (2 ^ (8 * n.count)))))
  | compact value format => .ok (.binary32 (format.decode (format.encode value)))
  | binary32 value =>
    if value.isRegular then .ok (.binary32 value) else .error (.irregularFloat value.value)
  | binary64 value =>
    if value.isRegular then .ok (.binary64 value) else .error (.irregularFloat value.value)

/-- The number that the bytes of the field spell. -/
def pattern : WireField → Nat
  | unsigned value _ => value.toNat
  | signed value _ => value.toUInt64.toNat
  | compact value format => format.encode value
  | binary32 value => value.bits.toNat
  | binary64 value => value.bits.toNat

/-- **The bytes of the field.** -/
def bytes (order : ByteOrder) (field : WireField) : List UInt8 :=
  order.encode field.kind.size field.pattern

end WireField

/-! ### Records -/

/-- **Write the fields of a record** behind `output`. -/
def writeRecord (order : ByteOrder) (output : List UInt8) (fields : List WireField) :
    Except FieldError (List UInt8) :=
  fields.foldlM (fun output field => field.write order output) output

/-- **Read fields of the given kinds**, one after another, from the position of the cursor on. An
error does not end the reading: the next field is read from where it has left the cursor. -/
def readRecord (order : ByteOrder) :
    List FieldKind → FieldCursor → List (Except FieldError FieldValue) × FieldCursor
  | [], c => ([], c)
  | kind :: kinds, c =>
    let (value, c) := (kind.read order).run.run c
    let (values, c) := readRecord order kinds c
    (value :: values, c)

/-! ### Running readers -/

namespace FieldReader

variable {α β : Type}

/-- **One reader after another.** The second is not run if the first fails. -/
theorem run_bind (reader : FieldReader α) (next : α → FieldReader β) (c : FieldCursor) :
    (reader >>= next).run.run c =
      match reader.run.run c with
      | (.ok a, c) => (next a).run.run c
      | (.error e, c) => (.error e, c) := by
  change (StateT.bind reader.run (ExceptT.bindCont next)) c = _
  obtain ⟨⟨result, c'⟩, h⟩ : ∃ p, reader.run.run c = p := ⟨_, rfl⟩
  have h' : reader.run c = (result, c') := h
  rw [h]
  unfold StateT.bind
  rw [h']
  cases result <;> rfl

/-- **Reading bytes**, with the position behind them if there are enough. -/
theorem run_bytes (count : Nat) (c : FieldCursor) :
    (bytes count).run.run c =
      if c.position + count ≤ c.input.length then
        (.ok ((c.input.drop c.position).take count), { c with position := c.position + count })
      else (.error .endOfInput, { c with position := c.input.length }) := by
  rw [bytes, run_bind]
  change StateT.run (ExceptT.run (if c.position + count ≤ c.input.length then _ else _)) c = _
  split <;> rfl

/-- The bytes in front of the cursor are read, and the cursor stands behind them. -/
theorem run_bytes_append (before field behind : List UInt8) :
    (bytes field.length).run.run ⟨before ++ (field ++ behind), before.length⟩ =
      (.ok field, ⟨before ++ (field ++ behind), before.length + field.length⟩) := by
  rw [run_bytes]
  simp only [List.length_append, List.drop_left, List.take_left]
  rw [if_pos (by omega)]

end FieldReader

/-! ### One field -/

theorem checkByteCount_count (n : ByteCount) : FieldWriter.checkByteCount n.count = .ok () :=
  if_pos ⟨n.one_le, n.le_eight⟩

theorem checkWidth_width (format : CompactFormat) :
    FieldWriter.checkWidth format format.width = .ok () :=
  if_pos rfl

namespace FieldReader

variable {order : ByteOrder} {field : List UInt8} {c c' : FieldCursor}

/-! What a reader makes of the bytes of its field. -/

theorem run_unsigned {n : ByteCount} (h : (bytes n.count).run.run c = (.ok field, c')) :
    (unsigned order n.count).run.run c = (.ok (UInt64.ofNat (order.decode field)), c') := by
  rw [unsigned, checkByteCount_count, run_bind]
  change ((bytes n.count >>= _).run.run c) = _
  rw [run_bind, h]
  rfl

theorem run_signed {n : ByteCount} (h : (bytes n.count).run.run c = (.ok field, c')) :
    (signed order n.count).run.run c =
      (.ok (signExtend (UInt64.ofNat (order.decode field)) (8 * n.count)), c') := by
  rw [signed, run_bind, run_unsigned h]
  rfl

theorem run_compact {format : CompactFormat}
    (h : (bytes format.width.bytes).run.run c = (.ok field, c')) :
    (compact format.width order format).run.run c =
      (.ok (format.decode (order.decode field)), c') := by
  rw [compact, checkWidth_width, run_bind]
  change ((bytes format.width.bytes >>= _).run.run c) = _
  rw [run_bind, h]
  rfl

theorem run_binary32 (h : (bytes 4).run.run c = (.ok field, c')) {x : Binary32}
    (hx : ⟨UInt32.ofNat (order.decode field)⟩ = x) :
    (binary32 order).run.run c =
      (if x.isRegular then .ok x else .error (.irregularFloat x.value), c') := by
  subst hx
  rw [binary32, run_bind, h]
  simp only
  split <;> rfl

theorem run_binary64 (h : (bytes 8).run.run c = (.ok field, c')) {x : Binary64}
    (hx : ⟨UInt64.ofNat (order.decode field)⟩ = x) :
    (binary64 order).run.run c =
      (if x.isRegular then .ok x else .error (.irregularFloat x.value), c') := by
  subst hx
  rw [binary64, run_bind, h]
  simp only
  split <;> rfl

end FieldReader

/-- As many bytes as a field has, as a power of two. -/
theorem two_pow_eight_mul (n : Nat) : 256 ^ n = 2 ^ (8 * n) :=
  (Nat.pow_mul 2 8 n).symm

/-- The bytes of a word are the word. -/
theorem mod_of_lt_word {value n : Nat} (h : value < 2 ^ (8 * n)) : value % 256 ^ n = value := by
  rw [two_pow_eight_mul, Nat.mod_eq_of_lt h]

/-- **The low bytes of a signed integer with their sign** are the integer that is nearest to zero
among those with these bytes. -/
theorem signExtend_low (value : Int64) (n : ByteCount) :
    signExtend (UInt64.ofNat (value.toUInt64.toNat % 256 ^ n.count)) (8 * n.count) =
      Int64.ofInt (value.toInt.bmod (2 ^ (8 * n.count))) := by
  have hle := n.le_eight
  have hword : (2 : Nat) ^ (8 * n.count) ≤ 2 ^ 64 := Nat.pow_le_pow_right (by decide) (by omega)
  have hdvd : (2 : Nat) ^ (8 * n.count) ∣ 2 ^ 64 := Nat.pow_dvd_pow 2 (by omega)
  have hlow : value.toUInt64.toNat % 2 ^ (8 * n.count) < 2 ^ 64 :=
    Nat.lt_of_lt_of_le (Nat.mod_lt _ (Nat.two_pow_pos _)) hword
  have hvalue : value.toInt = (value.toUInt64.toNat : Int).bmod (2 ^ 64) :=
    BitVec.toInt_eq_toNat_bmod value.toBitVec
  rw [signExtend, two_pow_eight_mul, UInt64.toNat_ofNat', Nat.mod_eq_of_lt hlow,
    Nat.min_eq_left (by omega), hvalue, Int.bmod_bmod_of_dvd hdvd, Int.natCast_emod, Int.emod_bmod]

namespace WireField

/-- A field puts its bytes behind the output, and never fails. -/
theorem write_eq (order : ByteOrder) (output : List UInt8) (field : WireField) :
    field.write order output = .ok (output ++ field.bytes order) := by
  cases field with
  | unsigned value n =>
    rw [write, FieldWriter.unsigned, checkByteCount_count]
    rfl
  | signed value n =>
    rw [write, FieldWriter.signed, FieldWriter.unsigned, checkByteCount_count]
    rfl
  | compact value format =>
    rw [write, FieldWriter.compact, checkWidth_width]
    rfl
  | binary32 value => rfl
  | binary64 value => rfl

@[simp] theorem length_bytes (order : ByteOrder) (field : WireField) :
    (field.bytes order).length = field.kind.size :=
  order.length_encode _ _

/-- What the bytes of the field spell. -/
theorem decode_bytes (order : ByteOrder) (field : WireField) :
    order.decode (field.bytes order) = field.pattern % 256 ^ field.kind.size :=
  order.decode_encode _ _

/-- The bytes in one order are those in the other, reversed. -/
theorem bytes_little (field : WireField) : field.bytes .little = (field.bytes .big).reverse :=
  ByteOrder.encode_little_eq_reverse _ _

/-- The bytes of the field are read by a reader of as many bytes. -/
theorem run_bytes_append (order : ByteOrder) (field : WireField) (before behind : List UInt8) :
    (FieldReader.bytes field.kind.size).run.run
        ⟨before ++ (field.bytes order ++ behind), before.length⟩ =
      (.ok (field.bytes order),
        ⟨before ++ (field.bytes order ++ behind), before.length + field.kind.size⟩) := by
  rw [← field.length_bytes order]
  exact FieldReader.run_bytes_append before (field.bytes order) behind

/-- **In front of the bytes of a field, the reader of its kind answers what is to be read**, and the
cursor stands behind these bytes. -/
theorem run_read (order : ByteOrder) (field : WireField) (before behind : List UInt8) :
    (field.kind.read order).run.run ⟨before ++ (field.bytes order ++ behind), before.length⟩ =
      (field.outcome,
        ⟨before ++ (field.bytes order ++ behind), before.length + field.kind.size⟩) := by
  have hbytes := field.run_bytes_append order before behind
  have hdecode := field.decode_bytes order
  cases field with
  | unsigned value n =>
    rw [kind, FieldKind.read, FieldReader.run_bind, FieldReader.run_unsigned hbytes, hdecode]
    simp only [outcome, pattern, kind, FieldKind.size, two_pow_eight_mul]
    rfl
  | signed value n =>
    rw [kind, FieldKind.read, FieldReader.run_bind, FieldReader.run_signed hbytes, hdecode]
    simp only [outcome, pattern, kind, FieldKind.size, signExtend_low]
    rfl
  | compact value format =>
    have hlt : format.encode value < 2 ^ (8 * format.width.bytes) := by
      have hbits : format.width.bits = 8 * format.width.bytes := by cases format.width <;> rfl
      rw [← hbits]
      exact format.encode_lt value
    rw [kind, FieldKind.read, FieldReader.run_bind, FieldReader.run_compact hbytes, hdecode]
    simp only [outcome, pattern, kind, FieldKind.size, mod_of_lt_word hlt]
    rfl
  | binary32 value =>
    have hx :
        (⟨UInt32.ofNat (order.decode ((binary32 value).bytes order))⟩ : Binary32) = value := by
      simp only [hdecode, pattern, kind, FieldKind.size]
      rw [mod_of_lt_word value.bits.toNat_lt, UInt32.ofNat_toNat]
    rw [kind, FieldKind.read, FieldReader.run_bind, FieldReader.run_binary32 hbytes hx, outcome]
    cases value.isRegular <;> rfl
  | binary64 value =>
    have hx :
        (⟨UInt64.ofNat (order.decode ((binary64 value).bytes order))⟩ : Binary64) = value := by
      simp only [hdecode, pattern, kind, FieldKind.size]
      rw [mod_of_lt_word value.bits.toNat_lt, UInt64.ofNat_toNat]
    rw [kind, FieldKind.read, FieldReader.run_bind, FieldReader.run_binary64 hbytes hx, outcome]
    cases value.isRegular <;> rfl

end WireField

/-! ### Whole records -/

/-- The fields of a record put their bytes one behind another. -/
theorem writeRecord_eq (order : ByteOrder) (output : List UInt8) (fields : List WireField) :
    writeRecord order output fields =
      .ok (output ++ fields.flatMap fun field => field.bytes order) := by
  induction fields generalizing output with
  | nil => exact congrArg Except.ok (List.append_nil output).symm
  | cons field fields ih =>
    rw [writeRecord, List.foldlM_cons, field.write_eq, List.flatMap_cons, ← List.append_assoc]
    exact ih _

/-- In front of the bytes of a record, all of its fields are read, and the cursor stands behind
them. -/
theorem readRecord_append (order : ByteOrder) (before behind : List UInt8)
    (fields : List WireField) :
    readRecord order (fields.map WireField.kind)
        ⟨before ++ ((fields.flatMap fun field => field.bytes order) ++ behind), before.length⟩ =
      (fields.map WireField.outcome,
        ⟨before ++ ((fields.flatMap fun field => field.bytes order) ++ behind),
          before.length + (fields.flatMap fun field => field.bytes order).length⟩) := by
  induction fields generalizing before with
  | nil => rfl
  | cons field fields ih =>
    have hrest := ih (before ++ field.bytes order)
    rw [List.length_append, List.append_assoc, ← List.append_assoc (field.bytes order),
      ← List.flatMap_cons, field.length_bytes] at hrest
    have hfirst := field.run_read order before
      ((fields.flatMap fun field => field.bytes order) ++ behind)
    rw [← List.append_assoc (field.bytes order), ← List.flatMap_cons] at hfirst
    rw [List.map_cons, List.map_cons, readRecord, hfirst]
    simp only
    rw [hrest, List.flatMap_cons, List.length_append, field.length_bytes, Nat.add_assoc]

/-- **What is written as a record is read as that record.** Writing succeeds, in either order of
bytes; reading fields of the same kinds, from where the record starts, answers for each field what
is to be read for it, also behind a number that is rejected, and ends at the end of the record. The
bytes of each field in one order are those in the other, reversed. -/
theorem readRecord_writeRecord (order : ByteOrder) (output : List UInt8)
    (fields : List WireField) :
    (∃ written, writeRecord order output fields = .ok written ∧
      readRecord order (fields.map WireField.kind) ⟨written, output.length⟩ =
        (fields.map WireField.outcome, ⟨written, written.length⟩)) ∧
    writeRecord .big output fields =
      .ok (output ++ fields.flatMap fun field => field.bytes .big) ∧
    writeRecord .little output fields =
      .ok (output ++ fields.flatMap fun field => (field.bytes .big).reverse) := by
  refine ⟨⟨_, writeRecord_eq order output fields, ?_⟩, writeRecord_eq .big output fields, ?_⟩
  · have hread := readRecord_append order output [] fields
    rw [List.append_nil] at hread
    rw [hread, List.length_append]
  · simp only [writeRecord_eq, WireField.bytes_little]

end WireCodec
