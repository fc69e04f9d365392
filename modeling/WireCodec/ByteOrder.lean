import WireCodec.Power

/-!
# Numbers as bytes

A number is written in a fixed count of bytes, either with its least or with its most
significant byte first. What does not fit into the count is dropped, so writing and reading back
gives the number modulo `256 ^ count` (`WireCodec.ByteOrder.decode_encode`).
-/

namespace WireCodec

/-! ### Least significant byte first -/

/-- The `count` low bytes of a number, the least significant first. -/
def littleEndian : (count value : Nat) → List UInt8
  | 0, _ => []
  | count + 1, value => UInt8.ofNat value :: littleEndian count (value / 256)

/-- The number that bytes spell, the least significant first. -/
def ofLittleEndian : List UInt8 → Nat
  | [] => 0
  | b :: bytes => b.toNat + 256 * ofLittleEndian bytes

@[simp] theorem littleEndian_zero (value : Nat) : littleEndian 0 value = [] := rfl

@[simp] theorem littleEndian_succ (count value : Nat) :
    littleEndian (count + 1) value = UInt8.ofNat value :: littleEndian count (value / 256) := rfl

@[simp] theorem ofLittleEndian_nil : ofLittleEndian [] = 0 := rfl

@[simp] theorem ofLittleEndian_cons (b : UInt8) (bytes : List UInt8) :
    ofLittleEndian (b :: bytes) = b.toNat + 256 * ofLittleEndian bytes := rfl

@[simp] theorem length_littleEndian (count value : Nat) :
    (littleEndian count value).length = count := by
  induction count generalizing value with
  | zero => rfl
  | succ count ih => simp [ih]

theorem ofLittleEndian_littleEndian (count value : Nat) :
    ofLittleEndian (littleEndian count value) = value % 256 ^ count := by
  induction count generalizing value with
  | zero => simp [Nat.mod_one]
  | succ count ih =>
    have hb : (UInt8.ofNat value).toNat = value % 256 := UInt8.toNat_ofNat'
    rw [littleEndian_succ, ofLittleEndian_cons, ih, hb, Nat.pow_succ', Nat.mod_mul]

theorem ofLittleEndian_lt (bytes : List UInt8) : ofLittleEndian bytes < 256 ^ bytes.length := by
  induction bytes with
  | nil => simp
  | cons b bytes ih =>
    have hb : b.toNat < 256 := b.toNat_lt
    simp only [ofLittleEndian_cons, List.length_cons, Nat.pow_succ]
    omega

theorem littleEndian_ofLittleEndian (bytes : List UInt8) :
    littleEndian bytes.length (ofLittleEndian bytes) = bytes := by
  induction bytes with
  | nil => rfl
  | cons b bytes ih =>
    have hb : b.toNat < 256 := b.toNat_lt
    have hq : (b.toNat + 256 * ofLittleEndian bytes) / 256 = ofLittleEndian bytes := by omega
    have hr : UInt8.ofNat (b.toNat + 256 * ofLittleEndian bytes) = b := by
      apply UInt8.toNat.inj
      rw [UInt8.toNat_ofNat']
      omega
    rw [List.length_cons, ofLittleEndian_cons, littleEndian_succ, hq, hr, ih]

/-! ### Either order -/

/-- **The order in which the bytes of a number are written.** -/
inductive ByteOrder
  /-- The most significant byte comes first. -/
  | big
  /-- The least significant byte comes first. -/
  | little
deriving DecidableEq, Repr

namespace ByteOrder

/-- The `count` low bytes of a number. -/
def encode : ByteOrder → (count value : Nat) → List UInt8
  | big, count, value => (littleEndian count value).reverse
  | little, count, value => littleEndian count value

/-- The number that bytes spell. -/
def decode : ByteOrder → List UInt8 → Nat
  | big, bytes => ofLittleEndian bytes.reverse
  | little, bytes => ofLittleEndian bytes

@[simp] theorem length_encode (order : ByteOrder) (count value : Nat) :
    (order.encode count value).length = count := by
  cases order <;> simp [encode]

/-- What one order writes is what the other writes, reversed. -/
theorem encode_little_eq_reverse (count value : Nat) :
    little.encode count value = (big.encode count value).reverse := by
  simp [encode]

/-- **Reading back gives the number up to the bytes it was written in.** -/
theorem decode_encode (order : ByteOrder) (count value : Nat) :
    order.decode (order.encode count value) = value % 256 ^ count := by
  cases order <;> simp [encode, decode, ofLittleEndian_littleEndian]

theorem decode_lt (order : ByteOrder) (bytes : List UInt8) :
    order.decode bytes < 256 ^ bytes.length := by
  cases order
  · simpa [decode] using ofLittleEndian_lt bytes.reverse
  · exact ofLittleEndian_lt bytes

/-- Bytes are what the number they spell is written as. -/
theorem encode_decode (order : ByteOrder) (bytes : List UInt8) :
    order.encode bytes.length (order.decode bytes) = bytes := by
  cases order
  · have := littleEndian_ofLittleEndian bytes.reverse
    rw [List.length_reverse] at this
    simp [encode, decode, this]
  · exact littleEndian_ofLittleEndian bytes

/-- What does not fit into the bytes is not written. -/
theorem encode_mod (order : ByteOrder) (count value : Nat) :
    order.encode count (value % 256 ^ count) = order.encode count value := by
  have h := order.encode_decode (order.encode count value)
  rwa [length_encode, decode_encode] at h

end ByteOrder

end WireCodec
