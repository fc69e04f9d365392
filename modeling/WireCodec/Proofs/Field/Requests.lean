import WireCodec.Proofs.Field.Record

/-!
# What a request leaves behind

A field can be asked for that does not exist: an integer of no bytes or of more than a word has, or
a compact number in a format of another width. Such a request is refused, and it is the only way for
a writer to fail. A reader also fails at the end of the input, and on a number that is not regular.

What is refused is known from the **shape** of the request, which has nothing to do with what is
written or read (`WireCodec.FieldShape.fault?`), and so is the number of bytes of the field
(`WireCodec.FieldShape.size`). The two decide what happens to the output and to the cursor:

| the request | output | cursor |
|---|---|---|
| is refused | as it was | where it was |
| asks for more bytes than there are left | | at the end of the input |
| is carried out | longer by the bytes of the field | behind the field, also of a rejected number |

Writers are run on an output that they change in place (`WireCodec.OutputWriter`), in the steps in
which they are composed of one another, so that an output that is left alone is something to be
proved. They answer what the writers of `WireCodec.FieldWriter` answer
(`WireCodec.WriteRequest.run_perform`). The readers keep their cursor when they fail, and all of
them have one form: a check, the bytes of the field, and a judgement on these bytes
(`WireCodec.FieldReader.Reads`).
-/

namespace WireCodec

/-! ### Shapes -/

/-- **What is asked for**, without the value. -/
inductive FieldShape
  /-- An integer of `count` bytes. -/
  | integer (count : Nat)
  /-- A compact number of the given width, in a format that may have another one. -/
  | compact (width : CompactWidth) (format : CompactFormat)
  /-- A 32-bit pattern. -/
  | binary32
  /-- A 64-bit pattern. -/
  | binary64
deriving DecidableEq, Repr

namespace FieldShape

/-- The number of bytes of the field. -/
def size : FieldShape → Nat
  | integer count => count
  | compact width _ => width.bytes
  | binary32 => 4
  | binary64 => 8

/-- **What is wrong with the request**, if anything is: integers have from one to eight bytes, and a
format has to be as wide as the field. -/
def fault? : FieldShape → Option FieldError
  | integer count => if 1 ≤ count ∧ count ≤ 8 then none else some (.byteCount count)
  | compact width format =>
    if format.width = width then none else some (.formatWidth width format.width)
  | binary32 => none
  | binary64 => none

theorem fault?_integer_eq_none_iff (count : Nat) :
    (integer count).fault? = none ↔ 1 ≤ count ∧ count ≤ 8 := by
  by_cases h : 1 ≤ count ∧ count ≤ 8 <;> simp [fault?, h]

/-- The check that fails with what is wrong. -/
def check (shape : FieldShape) : Except FieldError Unit :=
  match shape.fault? with
  | none => .ok ()
  | some fault => .error fault

theorem checkByteCount_eq (count : Nat) :
    FieldWriter.checkByteCount count = (integer count).check := by
  by_cases h : 1 ≤ count ∧ count ≤ 8
  · simp only [FieldWriter.checkByteCount, check, fault?, if_pos h]
  · simp only [FieldWriter.checkByteCount, check, fault?, if_neg h]

theorem checkWidth_eq (width : CompactWidth) (format : CompactFormat) :
    FieldWriter.checkWidth format width = (compact width format).check := by
  by_cases h : format.width = width
  · simp only [FieldWriter.checkWidth, check, fault?, if_pos h]
  · simp only [FieldWriter.checkWidth, check, fault?, if_neg h]

/-- The end of the input is nothing that is wrong with a request. -/
theorem fault?_ne_endOfInput (shape : FieldShape) : shape.fault? ≠ some .endOfInput := by
  cases shape with
  | integer count => by_cases h : 1 ≤ count ∧ count ≤ 8 <;> simp [fault?, h]
  | compact width format => by_cases h : format.width = width <;> simp [fault?, h]
  | binary32 => simp [fault?]
  | binary64 => simp [fault?]

end FieldShape

/-! ### Writing in place -/

/-- **A writer that changes the output in place.** The output is kept when it fails. -/
abbrev OutputWriter : Type :=
  ExceptT FieldError (StateM (List UInt8)) Unit

namespace OutputWriter

/-- Put bytes behind those written so far. -/
def append (bytes : List UInt8) : OutputWriter :=
  modify fun output => output ++ bytes

/-- Go on only if a check succeeds. -/
def require : Except FieldError Unit → OutputWriter
  | .ok _ => pure ()
  | .error e => throw e

/-- Write the low `count` bytes of an unsigned integer. -/
def unsigned (order : ByteOrder) (value : UInt64) (count : Nat) : OutputWriter := do
  require (FieldWriter.checkByteCount count)
  append (order.encode count (value &&& maxFieldValue (8 * count)).toNat)

/-- Write the low `count` bytes of the two's complement pattern of a signed integer. -/
def signed (order : ByteOrder) (value : Int64) (count : Nat) : OutputWriter := do
  require (FieldWriter.checkByteCount count)
  append (order.encode count value.toUInt64.toNat)

/-- Write a number as a scaled unsigned integer. -/
def scaledUnsigned (order : ByteOrder) (value min scaler : Float) (count : Nat) :
    OutputWriter := do
  require (FieldWriter.checkByteCount count)
  unsigned order (unsignedOfScaled value min scaler (8 * count)) count

/-- Write a number as a scaled signed integer. -/
def scaledSigned (order : ByteOrder) (value scaler : Float) (count : Nat) : OutputWriter := do
  require (FieldWriter.checkByteCount count)
  signed order (signedOfScaled value scaler (8 * count)) count

/-- Write a compact number of the given width. One of two bytes is written as an integer. -/
def compact (width : CompactWidth) (order : ByteOrder) (value : Binary32)
    (format : CompactFormat) : OutputWriter := do
  require (FieldWriter.checkWidth format width)
  match width with
  | .bits16 => unsigned order (UInt64.ofNat (format.encode value)) 2
  | .bits24 => append (order.encode 3 (format.encode value))

/-- Write a 32-bit pattern. -/
def binary32 (order : ByteOrder) (value : Binary32) : OutputWriter :=
  append (order.encode 4 value.bits.toNat)

/-- Write a 64-bit pattern. -/
def binary64 (order : ByteOrder) (value : Binary64) : OutputWriter :=
  append (order.encode 8 value.bits.toNat)

/-- **A writer of a field**: it is refused, and leaves the output alone, or it appends bytes. -/
def Writes (writer : OutputWriter) (shape : FieldShape) (bytes : List UInt8) : Prop :=
  ∀ output, writer.run.run output =
    match shape.fault? with
    | none => (.ok (), output ++ bytes)
    | some fault => (.error fault, output)

/-- A check in front of what is written does nothing but fail. -/
theorem run_require (check : Except FieldError Unit) (next : OutputWriter) (output : List UInt8) :
    (do require check; next : OutputWriter).run.run output =
      match check with
      | .ok _ => next.run.run output
      | .error e => (.error e, output) := by
  cases check <;> rfl

variable {shape : FieldShape} {writer : OutputWriter} {bytes : List UInt8}

theorem writes_append (shape : FieldShape) (bytes : List UInt8) :
    Writes (do require shape.check; append bytes) shape bytes := by
  intro output
  rw [run_require]
  unfold FieldShape.check
  cases shape.fault? <;> rfl

/-- **The check may be made a second time.** -/
theorem Writes.require (h : writer.Writes shape bytes) :
    Writes (do OutputWriter.require shape.check; writer) shape bytes := by
  intro output
  rw [run_require, h]
  unfold FieldShape.check
  cases shape.fault? <;> rfl

end OutputWriter

/-! ### Requests to write -/

/-- **A request to write a field.** -/
inductive WriteRequest
  /-- An unsigned integer. -/
  | unsigned (value : UInt64) (count : Nat)
  /-- A signed integer. -/
  | signed (value : Int64) (count : Nat)
  /-- A number, as a scaled unsigned integer. -/
  | scaledUnsigned (value min scaler : Float) (count : Nat)
  /-- A number, as a scaled signed integer. -/
  | scaledSigned (value scaler : Float) (count : Nat)
  /-- A number, as a compact one. -/
  | compact (width : CompactWidth) (value : Binary32) (format : CompactFormat)
  /-- A 32-bit pattern. -/
  | binary32 (value : Binary32)
  /-- A 64-bit pattern. -/
  | binary64 (value : Binary64)

namespace WriteRequest

/-- What is asked for. -/
def shape : WriteRequest → FieldShape
  | unsigned _ count => .integer count
  | signed _ count => .integer count
  | scaledUnsigned _ _ _ count => .integer count
  | scaledSigned _ _ count => .integer count
  | compact width _ format => .compact width format
  | binary32 _ => .binary32
  | binary64 _ => .binary64

/-- The number that the bytes of the field spell. -/
def pattern : WriteRequest → Nat
  | unsigned value _ => value.toNat
  | signed value _ => value.toUInt64.toNat
  | scaledUnsigned value min scaler count => (unsignedOfScaled value min scaler (8 * count)).toNat
  | scaledSigned value scaler count => (signedOfScaled value scaler (8 * count)).toUInt64.toNat
  | compact _ value format => format.encode value
  | binary32 value => value.bits.toNat
  | binary64 value => value.bits.toNat

/-- The bytes of the field. -/
def bytes (order : ByteOrder) (request : WriteRequest) : List UInt8 :=
  order.encode request.shape.size request.pattern

/-- The request is put to the writers that answer the new output. -/
def write (order : ByteOrder) (output : List UInt8) :
    WriteRequest → Except FieldError (List UInt8)
  | unsigned value count => FieldWriter.unsigned order output value count
  | signed value count => FieldWriter.signed order output value count
  | scaledUnsigned value min scaler count =>
    FieldWriter.scaledUnsigned order output value min scaler count
  | scaledSigned value scaler count => FieldWriter.scaledSigned order output value scaler count
  | compact width value format => FieldWriter.compact width order output value format
  | binary32 value => .ok (FieldWriter.binary32 order output value)
  | binary64 value => .ok (FieldWriter.binary64 order output value)

/-- The request is put to the writers that change the output in place. -/
def perform (order : ByteOrder) : WriteRequest → OutputWriter
  | unsigned value count => OutputWriter.unsigned order value count
  | signed value count => OutputWriter.signed order value count
  | scaledUnsigned value min scaler count =>
    OutputWriter.scaledUnsigned order value min scaler count
  | scaledSigned value scaler count => OutputWriter.scaledSigned order value scaler count
  | compact width value format => OutputWriter.compact width order value format
  | binary32 value => OutputWriter.binary32 order value
  | binary64 value => OutputWriter.binary64 order value

end WriteRequest

namespace OutputWriter

/-- Taking the low bytes of an integer twice is taking them once. -/
theorem writes_unsigned (order : ByteOrder) (value : UInt64) (count : Nat) :
    Writes (unsigned order value count) (.integer count) (order.encode count value.toNat) := by
  intro output
  have hwrites := writes_append (.integer count)
    (order.encode count (value &&& maxFieldValue (8 * count)).toNat) output
  rw [unsigned, FieldShape.checkByteCount_eq, hwrites]
  cases hfault : (FieldShape.integer count).fault? with
  | some fault => rfl
  | none =>
    have hcount : 8 * count ≤ 64 := by
      have := (FieldShape.fault?_integer_eq_none_iff count).mp hfault
      omega
    simp only [toNat_and_maxFieldValue hcount, ← two_pow_eight_mul, order.encode_mod]

theorem writes_signed (order : ByteOrder) (value : Int64) (count : Nat) :
    Writes (signed order value count) (.integer count)
      (order.encode count value.toUInt64.toNat) := by
  rw [signed, FieldShape.checkByteCount_eq]
  exact writes_append _ _

theorem writes_compact (width : CompactWidth) (order : ByteOrder) (value : Binary32)
    (format : CompactFormat) :
    Writes (compact width order value format) (.compact width format)
      (order.encode width.bytes (format.encode value)) := by
  intro output
  unfold compact
  rw [FieldShape.checkWidth_eq, run_require]
  by_cases hwidth : format.width = width
  · have hlt : format.encode value < 2 ^ width.bits := hwidth ▸ format.encode_lt value
    simp only [FieldShape.check, FieldShape.fault?, if_pos hwidth]
    cases width with
    | bits16 =>
      have hword : (UInt64.ofNat (format.encode value)).toNat = format.encode value :=
        UInt64.toNat_ofNat_of_lt' (Nat.lt_trans hlt (by decide))
      have hwrites := writes_unsigned order (UInt64.ofNat (format.encode value)) 2 output
      rw [hword] at hwrites
      exact hwrites
    | bits24 => rfl
  · simp only [FieldShape.check, FieldShape.fault?, if_neg hwidth]

end OutputWriter

namespace WriteRequest

/-- **Every request is carried out in the same way**: it is refused, or its bytes are appended. -/
theorem writes_perform (order : ByteOrder) (request : WriteRequest) :
    (request.perform order).Writes request.shape (request.bytes order) := by
  cases request with
  | unsigned value count => exact OutputWriter.writes_unsigned order value count
  | signed value count => exact OutputWriter.writes_signed order value count
  | scaledUnsigned value min scaler count =>
    rw [perform, OutputWriter.scaledUnsigned, FieldShape.checkByteCount_eq]
    exact (OutputWriter.writes_unsigned order _ count).require
  | scaledSigned value scaler count =>
    rw [perform, OutputWriter.scaledSigned, FieldShape.checkByteCount_eq]
    exact (OutputWriter.writes_signed order _ count).require
  | compact width value format => exact OutputWriter.writes_compact width order value format
  | binary32 value => exact fun output => rfl
  | binary64 value => exact fun output => rfl

/-- The writers that answer the new output do what is asked for, too. -/
theorem write_eq (order : ByteOrder) (output : List UInt8) (request : WriteRequest) :
    request.write order output =
      match request.shape.fault? with
      | none => .ok (output ++ request.bytes order)
      | some fault => .error fault := by
  -- All writers of integers end with the one of unsigned integers.
  have hinteger : ∀ (value : UInt64) (count : Nat), FieldWriter.unsigned order output value count =
      match (FieldShape.integer count).fault? with
      | none => .ok (output ++ order.encode count value.toNat)
      | some fault => .error fault := by
    intro value count
    rw [FieldWriter.unsigned, FieldShape.checkByteCount_eq, FieldShape.check]
    cases (FieldShape.integer count).fault? <;> rfl
  cases request with
  | unsigned value count => exact hinteger _ _
  | signed value count => exact hinteger _ _
  | scaledUnsigned value min scaler count => exact hinteger _ _
  | scaledSigned value scaler count => exact hinteger _ _
  | compact width value format =>
    rw [write, FieldWriter.compact, FieldShape.checkWidth_eq, FieldShape.check, shape]
    cases (FieldShape.compact width format).fault? <;> rfl
  | binary32 value => rfl
  | binary64 value => rfl

/-- **Both ways to write agree**: a request that is refused leaves the output alone, and any other
leaves the output that is answered. -/
theorem run_perform (order : ByteOrder) (output : List UInt8) (request : WriteRequest) :
    (request.perform order).run.run output =
      match request.write order output with
      | .ok output' => (.ok (), output')
      | .error fault => (.error fault, output) := by
  rw [request.writes_perform order output, request.write_eq order output]
  cases request.shape.fault? <;> rfl

end WriteRequest

/-! ### Requests to read -/

/-- **A request to read a field.** -/
inductive ReadRequest
  /-- An unsigned integer. -/
  | unsigned (count : Nat)
  /-- A signed integer. -/
  | signed (count : Nat)
  /-- The number that a scaled unsigned integer stands for. -/
  | scaledUnsigned (min scaler : Float) (count : Nat)
  /-- The number that a scaled signed integer stands for. -/
  | scaledSigned (scaler : Float) (count : Nat)
  /-- A compact number. -/
  | compact (width : CompactWidth) (format : CompactFormat)
  /-- A 32-bit pattern of a regular number. -/
  | binary32
  /-- A 64-bit pattern of a regular number. -/
  | binary64

namespace ReadRequest

/-- What is asked for. -/
def shape : ReadRequest → FieldShape
  | unsigned count => .integer count
  | signed count => .integer count
  | scaledUnsigned _ _ count => .integer count
  | scaledSigned _ count => .integer count
  | compact width format => .compact width format
  | binary32 => .binary32
  | binary64 => .binary64

/-- The type of what is read. -/
def Answer : ReadRequest → Type
  | unsigned _ => UInt64
  | signed _ => Int64
  | scaledUnsigned _ _ _ => Float
  | scaledSigned _ _ => Float
  | compact _ _ => Binary32
  | binary32 => Binary32
  | binary64 => Binary64

/-- The reader of the request. -/
def read (order : ByteOrder) : (request : ReadRequest) → FieldReader request.Answer
  | unsigned count => FieldReader.unsigned order count
  | signed count => FieldReader.signed order count
  | scaledUnsigned min scaler count => FieldReader.scaledUnsigned order min scaler count
  | scaledSigned scaler count => FieldReader.scaledSigned order scaler count
  | compact width format => FieldReader.compact width order format
  | binary32 => FieldReader.binary32 order
  | binary64 => FieldReader.binary64 order

/-- **What the bytes of the field are worth.** Only a number that is not regular is rejected. -/
def judge (order : ByteOrder) :
    (request : ReadRequest) → List UInt8 → Except FieldError request.Answer
  | unsigned _, field => .ok (UInt64.ofNat (order.decode field))
  | signed count, field => .ok (signExtend (UInt64.ofNat (order.decode field)) (8 * count))
  | scaledUnsigned min scaler _, field =>
    .ok (scaledOfUnsigned (UInt64.ofNat (order.decode field)) min scaler)
  | scaledSigned scaler count, field =>
    .ok (scaledOfSigned (signExtend (UInt64.ofNat (order.decode field)) (8 * count)) scaler)
  | compact _ format, field => .ok (format.decode (order.decode field))
  | binary32, field =>
    let x : Binary32 := ⟨UInt32.ofNat (order.decode field)⟩
    if x.isRegular then .ok x else .error (.irregularFloat x.value)
  | binary64, field =>
    let x : Binary64 := ⟨UInt64.ofNat (order.decode field)⟩
    if x.isRegular then .ok x else .error (.irregularFloat x.value)

theorem judge_cases (order : ByteOrder) (request : ReadRequest) (field : List UInt8) :
    (∃ answer, request.judge order field = .ok answer) ∨
      ∃ value, request.judge order field = .error (.irregularFloat value) := by
  cases request with
  | unsigned count => exact .inl ⟨_, rfl⟩
  | signed count => exact .inl ⟨_, rfl⟩
  | scaledUnsigned min scaler count => exact .inl ⟨_, rfl⟩
  | scaledSigned scaler count => exact .inl ⟨_, rfl⟩
  | compact width format => exact .inl ⟨_, rfl⟩
  | binary32 =>
    simp only [judge]
    split
    · exact .inl ⟨_, rfl⟩
    · exact .inr ⟨_, rfl⟩
  | binary64 =>
    simp only [judge]
    split
    · exact .inl ⟨_, rfl⟩
    · exact .inr ⟨_, rfl⟩

end ReadRequest

namespace FieldReader

variable {α β : Type} {shape : FieldShape} {judge : List UInt8 → Except FieldError α}

/-- **A reader of a field**: it is refused, and leaves the cursor alone, or it takes the bytes of
the field and judges them. -/
def Reads (reader : FieldReader α) (shape : FieldShape)
    (judge : List UInt8 → Except FieldError α) : Prop :=
  ∀ c, reader.run.run c =
    match shape.fault? with
    | none =>
      if c.position + shape.size ≤ c.input.length then
        (judge ((c.input.drop c.position).take shape.size),
          { c with position := c.position + shape.size })
      else (.error .endOfInput, { c with position := c.input.length })
    | some fault => (.error fault, c)

theorem Reads.run_of_fits {reader : FieldReader α} (h : reader.Reads shape judge)
    (hfault : shape.fault? = none) {c : FieldCursor}
    (hfit : c.position + shape.size ≤ c.input.length) :
    reader.run.run c = (judge ((c.input.drop c.position).take shape.size),
      { c with position := c.position + shape.size }) := by
  rw [h c, hfault]
  exact if_pos hfit

theorem Reads.run_of_short {reader : FieldReader α} (h : reader.Reads shape judge)
    (hfault : shape.fault? = none) {c : FieldCursor}
    (hshort : c.input.length < c.position + shape.size) :
    reader.run.run c = (.error .endOfInput, { c with position := c.input.length }) := by
  rw [h c, hfault]
  exact if_neg (Nat.not_le.mpr hshort)

/-- Only a check stands in front of the bytes, and nothing behind them moves the cursor. -/
theorem reads_bytes (shape : FieldShape) {next : List UInt8 → FieldReader α}
    (h : ∀ field c, (next field).run.run c = (judge field, c)) :
    Reads (do require shape.check; next (← bytes shape.size)) shape judge := by
  intro c
  rw [run_bind, FieldShape.check]
  cases shape.fault? with
  | some fault => rfl
  | none =>
    change (bytes shape.size >>= next).run.run c = _
    rw [run_bind, run_bytes]
    by_cases hfit : c.position + shape.size ≤ c.input.length
    · simp only [if_pos hfit, h]
    · simp only [if_neg hfit]

/-- What is made of a value that has been read does not move the cursor. -/
theorem Reads.map {reader : FieldReader α} (h : reader.Reads shape judge) (f : α → β) :
    Reads (do return f (← reader)) shape fun field => (judge field).map f := by
  intro c
  rw [run_bind, h c]
  cases shape.fault? with
  | some fault => rfl
  | none =>
    by_cases hfit : c.position + shape.size ≤ c.input.length
    · simp only [if_pos hfit]
      cases judge ((c.input.drop c.position).take shape.size) <;> rfl
    · simp only [if_neg hfit]

end FieldReader

namespace ReadRequest

theorem reads_unsigned (order : ByteOrder) (count : Nat) :
    (FieldReader.unsigned order count).Reads (.integer count)
      ((unsigned count).judge order) := by
  rw [FieldReader.unsigned, FieldShape.checkByteCount_eq]
  exact FieldReader.reads_bytes _ fun field c => rfl

/-- **Every request is answered in the same way.** -/
theorem reads_read (order : ByteOrder) (request : ReadRequest) :
    (request.read order).Reads request.shape (request.judge order) := by
  have hsigned : ∀ count, (FieldReader.signed order count).Reads (.integer count)
      ((signed count).judge order) := fun count => (reads_unsigned order count).map _
  cases request with
  | unsigned count => exact reads_unsigned order count
  | signed count => exact hsigned count
  | scaledUnsigned min scaler count => exact (reads_unsigned order count).map _
  | scaledSigned scaler count => exact (hsigned count).map _
  | compact width format =>
    rw [read, FieldReader.compact, FieldShape.checkWidth_eq]
    exact FieldReader.reads_bytes _ fun field c => rfl
  | binary32 =>
    refine FieldReader.reads_bytes .binary32 fun field c => ?_
    simp only [judge]
    split <;> rfl
  | binary64 =>
    refine FieldReader.reads_bytes .binary64 fun field c => ?_
    simp only [judge]
    split <;> rfl

end ReadRequest

/-! ### What is left behind -/

/-- **What a writer leaves behind.** -/
structure WriteEffect (shape : FieldShape) (output : List UInt8)
    (outcome : Except FieldError Unit × List UInt8) : Prop where
  /-- It fails with what is wrong with the request, and with nothing else. -/
  fails_iff : ∀ fault, outcome.1 = .error fault ↔ shape.fault? = some fault
  /-- When it fails, the output is as it was. -/
  untouched : ∀ fault, outcome.1 = .error fault → outcome.2 = output
  /-- Otherwise the bytes of the field have been put behind the output. -/
  appended : outcome.1 = .ok () →
    ∃ bytes : List UInt8, bytes.length = shape.size ∧ outcome.2 = output ++ bytes

/-- **What a reader leaves behind.** -/
structure ReadEffect {α : Type} (shape : FieldShape) (c : FieldCursor)
    (outcome : Except FieldError α × FieldCursor) : Prop where
  /-- The input is not touched. -/
  input : outcome.2.input = c.input
  /-- A request that something is wrong with is refused, and the cursor stays. -/
  refused : ∀ fault, shape.fault? = some fault → outcome = (.error fault, c)
  /-- Any other fails at the end of the input exactly if there are too few bytes left. -/
  endOfInput_iff : shape.fault? = none →
    (outcome.1 = .error .endOfInput ↔ c.input.length < c.position + shape.size)
  /-- At the end of the input the cursor is left there, also from behind it. -/
  atEnd : outcome.1 = .error .endOfInput → outcome.2.position = c.input.length
  /-- In all other cases the field has been read, whatever it is worth. -/
  advanced : shape.fault? = none → outcome.1 ≠ .error .endOfInput →
    outcome.2.position = c.position + shape.size ∧
      ((∃ value, outcome.1 = .ok value) ∨ ∃ value, outcome.1 = .error (.irregularFloat value))

theorem OutputWriter.Writes.effect {writer : OutputWriter} {shape : FieldShape}
    {bytes : List UInt8} (h : writer.Writes shape bytes) (hlength : bytes.length = shape.size)
    (output : List UInt8) : WriteEffect shape output (writer.run.run output) := by
  rw [h output]
  cases hfault : shape.fault? with
  | none => exact ⟨by simp [hfault], by simp, fun _ => ⟨bytes, hlength, rfl⟩⟩
  | some fault => exact ⟨by simp [hfault], fun _ _ => rfl, by simp⟩

theorem FieldReader.Reads.effect {α : Type} {reader : FieldReader α} {shape : FieldShape}
    {judge : List UInt8 → Except FieldError α} (h : reader.Reads shape judge)
    (hjudge : ∀ field, (∃ value, judge field = .ok value) ∨
      ∃ value, judge field = .error (.irregularFloat value)) (c : FieldCursor) :
    ReadEffect shape c (reader.run.run c) := by
  cases hfault : shape.fault? with
  | some fault =>
    have hne : fault ≠ .endOfInput := fun heq =>
      shape.fault?_ne_endOfInput (heq ▸ hfault)
    rw [h c, hfault]
    exact ⟨rfl, by simp [hfault], by simp [hfault], by simp [hne], by simp [hfault]⟩
  | none =>
    rcases Nat.lt_or_ge c.input.length (c.position + shape.size) with hshort | hfit
    · rw [h.run_of_short hfault hshort]
      exact ⟨rfl, by simp [hfault], fun _ => iff_of_true rfl hshort, fun _ => rfl,
        fun _ hne => absurd rfl hne⟩
    · have hanswer := hjudge ((c.input.drop c.position).take shape.size)
      have hread : judge ((c.input.drop c.position).take shape.size) ≠ .error .endOfInput := by
        rcases hanswer with ⟨value, hvalue⟩ | ⟨value, hvalue⟩ <;> simp [hvalue]
      rw [h.run_of_fits hfault hfit]
      exact ⟨rfl, by simp [hfault], fun _ => iff_of_false hread (Nat.not_lt.mpr hfit),
        fun heq => absurd heq hread, fun _ _ => ⟨rfl, hanswer⟩⟩

/-- **No request brings the fields out of step**, in either order of bytes. A writer fails only if
something is wrong with the request, and leaves the output alone then; otherwise it appends as many
bytes as the field has, and this is what the writers that answer the new output say. A reader leaves
the cursor alone if something is wrong with the request, and at the end of the input if there are
too few bytes; otherwise it moves the cursor behind the field, also if it rejects the number. -/
theorem requests_keep_in_step (order : ByteOrder) :
    (∀ (request : WriteRequest) (output : List UInt8),
      WriteEffect request.shape output ((request.perform order).run.run output) ∧
      (request.perform order).run.run output =
        match request.write order output with
        | .ok output' => (.ok (), output')
        | .error fault => (.error fault, output)) ∧
    ∀ (request : ReadRequest) (c : FieldCursor),
      ReadEffect request.shape c ((request.read order).run.run c) := by
  refine ⟨fun request output => ⟨?_, request.run_perform order output⟩, fun request c => ?_⟩
  · exact (request.writes_perform order).effect (order.length_encode _ _) output
  · exact (request.reads_read order).effect (request.judge_cases order) c

end WireCodec
