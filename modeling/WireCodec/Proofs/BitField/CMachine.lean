import Mathlib.Logic.Function.Basic
import WireCodec.BitField.CStatement

/-!
# What C statements do

The statements for bit fields, executed on a memory of byte arrays and integer variables
(`WireCodec.CMemory`) as C says. The types are those of two's complement machines with an `int` of
32 bits.

* An operand narrower than `int` is promoted to `int` before anything is done with it, so the bytes
  of an array are signed where an expression uses them (`WireCodec.CType.promoted`). A shift has the
  type of its promoted left operand, and the operands of `&` and `|` are converted to the wider of
  their types, which is unsigned if one of the two is and both are equally wide
  (`WireCodec.CType.common`).
* An assignment converts to the type of what is assigned to.
* Where C leaves open what happens there is no result: a shift by the width of the type or more, a
  negative number shifted, a shift that makes an `int` overflow, an index behind the end of an
  array, a variable that has not been assigned to.

All numbers that occur in statements for bit fields are natural, so each operation has its lemma
for the values that are natural numbers below the limit of their type (`WireCodec.CValue.ofNat`).
-/

namespace WireCodec

/-! ### Types -/

/-- **A type of C integers.** -/
structure CType where
  /-- How many bits a value has. -/
  width : Nat
  /-- The first of the bits is a sign. -/
  signed : Bool
deriving DecidableEq, Repr

namespace CType

/-- The type `uint8_t`. -/
def byte : CType := ⟨8, false⟩

/-- The type `int`. -/
def int : CType := ⟨32, true⟩

/-- The type `uint32_t`. -/
def word32 : CType := ⟨32, false⟩

/-- The type `uint64_t`. -/
def word64 : CType := ⟨64, false⟩

/-- The least natural number that is no value of the type. -/
def limit (t : CType) : Nat :=
  2 ^ (if t.signed then t.width - 1 else t.width)

/-- **Integer promotion**: a type narrower than `int` becomes `int`. -/
def promoted (t : CType) : CType :=
  if t.width < int.width then int else t

/-- The type that two operands are converted to, when both have been promoted. -/
def common (s t : CType) : CType :=
  if s.promoted.width < t.promoted.width then t.promoted
  else if t.promoted.width < s.promoted.width then s.promoted
  else ⟨s.promoted.width, s.promoted.signed && t.promoted.signed⟩

theorem limit_le (t : CType) : t.limit ≤ 2 ^ t.width := by
  refine Nat.pow_le_pow_right (by decide) ?_
  split <;> omega

/-- The type is one of the words that a field is written from or read into. -/
def IsWord (t : CType) : Prop :=
  t = word32 ∨ t = word64

/-- Promotion loses no values. -/
theorem limit_le_limit_promoted (t : CType) : t.limit ≤ t.promoted.limit := by
  unfold promoted
  split
  · rename_i h
    refine Nat.pow_le_pow_right (by decide) ?_
    simp only [int] at h ⊢
    split <;> simp <;> omega
  · exact Nat.le_refl _

theorem le_limit {s : CType} (hs : s = byte ∨ s = int) : 256 ≤ s.limit := by
  rcases hs with rfl | rfl <;> decide

section Words

variable {t : CType} (h : t.IsWord)
include h

theorem IsWord.signed : t.signed = false := by
  rcases h with rfl | rfl <;> rfl

theorem IsWord.promoted : t.promoted = t := by
  rcases h with rfl | rfl <;> rfl

theorem IsWord.limit : t.limit = 2 ^ t.width := by
  rcases h with rfl | rfl <;> rfl

theorem IsWord.width_ge : 32 ≤ t.width := by
  rcases h with rfl | rfl <;> decide

theorem IsWord.width_le : t.width ≤ 64 := by
  rcases h with rfl | rfl <;> decide

/-- A word joined with a byte, promoted or not, is a word. -/
theorem IsWord.common {s : CType} (hs : s = byte ∨ s = int) : t.common s = t := by
  rcases h with rfl | rfl <;> rcases hs with rfl | rfl <;> rfl

end Words

end CType

/-! ### Values -/

/-- **A C integer**: its type and its bits. -/
structure CValue where
  /-- The type. -/
  type : CType
  /-- The bits, those of the two's complement if the type is signed. -/
  bits : BitVec type.width
deriving DecidableEq, Repr

namespace CValue

/-- The number that a value stands for. -/
def toInt (v : CValue) : Int :=
  if v.type.signed then v.bits.toInt else v.bits.toNat

/-- **Conversion to a type**, modulo the number of its values. -/
def bitsAs (v : CValue) (t : CType) : BitVec t.width :=
  BitVec.ofInt t.width v.toInt

/-- The value of a type that stands for a natural number, modulo the number of its values. -/
def ofNat (t : CType) (n : Nat) : CValue :=
  ⟨t, BitVec.ofNat t.width n⟩

/-- The value of a constant, if the constant is an `int`. -/
def constant? (n : Nat) : Option CValue :=
  if n < CType.int.limit then some (ofNat .int n) else none

/-- A value shifted to the left by a constant. -/
def shiftLeft? (v : CValue) (amount : Nat) : Option CValue :=
  let t := v.type.promoted
  if amount < t.width ∧ (t.signed = false ∨ 0 ≤ v.toInt ∧ v.toInt * 2 ^ amount < t.limit) then
    some ⟨t, v.bitsAs t <<< amount⟩
  else none

/-- A value shifted to the right by a constant. -/
def shiftRight? (v : CValue) (amount : Nat) : Option CValue :=
  let t := v.type.promoted
  if amount < t.width ∧ 0 ≤ v.toInt then some ⟨t, v.bitsAs t >>> amount⟩ else none

/-- The bitwise and of two values. -/
def bitAnd (v w : CValue) : CValue :=
  let t := v.type.common w.type
  ⟨t, v.bitsAs t &&& w.bitsAs t⟩

/-- The bitwise or of two values. -/
def bitOr (v w : CValue) : CValue :=
  let t := v.type.common w.type
  ⟨t, v.bitsAs t ||| w.bitsAs t⟩

/-! ### Natural numbers as values -/

/-- Below the limit of a type, a natural number is what its value stands for. -/
theorem toInt_ofNat {t : CType} {n : Nat} (h : n < t.limit) : (ofNat t n).toInt = n := by
  obtain ⟨width, signed⟩ := t
  cases signed with
  | false =>
    have hlimit : n < 2 ^ width := h
    change ((BitVec.ofNat width n).toNat : Int) = n
    rw [BitVec.toNat_ofNat, Nat.mod_eq_of_lt hlimit]
  | true =>
    have hlimit : n < 2 ^ (width - 1) := h
    have hdouble : 2 * n < 2 ^ width := by
      cases width with
      | zero => simp at hlimit ⊢; omega
      | succ width => rw [Nat.pow_succ]; simp at hlimit; omega
    have hmod : (BitVec.ofNat width n).toNat = n := by
      rw [BitVec.toNat_ofNat, Nat.mod_eq_of_lt (by omega)]
    change (BitVec.ofNat width n).toInt = n
    rw [BitVec.toInt_eq_toNat_of_lt (by rwa [hmod]), hmod]

theorem bitsAs_ofNat {s : CType} {n : Nat} (h : n < s.limit) (t : CType) :
    (ofNat s n).bitsAs t = BitVec.ofNat t.width n := by
  rw [bitsAs, toInt_ofNat h, BitVec.ofInt_natCast]

/-- Conversion to its own type leaves a value as it is. -/
theorem bitsAs_type (v : CValue) : v.bitsAs v.type = v.bits := by
  unfold bitsAs toInt
  split
  · exact BitVec.ofInt_toInt
  · rw [BitVec.ofInt_natCast, BitVec.ofNat_toNat, BitVec.setWidth_eq]

theorem bitsAs_self (t : CType) (n : Nat) : (ofNat t n).bitsAs t = BitVec.ofNat t.width n :=
  bitsAs_type (ofNat t n)

/-- **An unsigned value shifted to the left** loses the bits above its type and no others. -/
theorem shiftLeft?_ofNat {t : CType} (hsigned : t.signed = false) (hpromoted : t.promoted = t)
    (n : Nat) {amount : Nat} (h : amount < t.width) :
    (ofNat t n).shiftLeft? amount = some (ofNat t (n <<< amount)) := by
  have hself : (ofNat t n).bitsAs t.promoted = BitVec.ofNat t.promoted.width n := by
    rw [hpromoted, bitsAs_self]
  have hbits : BitVec.ofNat t.promoted.width n <<< amount =
      BitVec.ofNat t.promoted.width (n <<< amount) := by
    refine BitVec.eq_of_toNat_eq ?_
    rw [BitVec.toNat_shiftLeft, BitVec.toNat_ofNat, BitVec.toNat_ofNat, Nat.shiftLeft_eq,
      Nat.shiftLeft_eq, Nat.mod_mul_mod]
  have hdefined : amount < t.promoted.width ∧ (t.promoted.signed = false ∨
      0 ≤ (ofNat t n).toInt ∧ (ofNat t n).toInt * 2 ^ amount < t.promoted.limit) := by
    rw [hpromoted]
    exact ⟨h, .inl hsigned⟩
  calc (ofNat t n).shiftLeft? amount
      = some ⟨t.promoted, (ofNat t n).bitsAs t.promoted <<< amount⟩ := if_pos hdefined
    _ = some (ofNat t.promoted (n <<< amount)) := by rw [hself, hbits, ofNat]
    _ = some (ofNat t (n <<< amount)) := by rw [hpromoted]

theorem shiftRight?_ofNat {t : CType} {n amount : Nat} (hn : n < t.limit)
    (h : amount < t.promoted.width) :
    (ofNat t n).shiftRight? amount = some (ofNat t.promoted (n >>> amount)) := by
  have hfits : n < 2 ^ t.promoted.width :=
    Nat.lt_of_lt_of_le hn (Nat.le_trans t.limit_le_limit_promoted t.promoted.limit_le)
  have hbits : BitVec.ofNat t.promoted.width n >>> amount =
      BitVec.ofNat t.promoted.width (n >>> amount) := by
    refine BitVec.eq_of_toNat_eq ?_
    rw [BitVec.toNat_ushiftRight, BitVec.toNat_ofNat, BitVec.toNat_ofNat, Nat.mod_eq_of_lt hfits,
      Nat.mod_eq_of_lt (Nat.lt_of_le_of_lt (Nat.shiftRight_le n amount) hfits)]
  have hnonneg : 0 ≤ (ofNat t n).toInt := by
    rw [toInt_ofNat hn]
    exact Int.natCast_nonneg n
  calc (ofNat t n).shiftRight? amount
      = some ⟨t.promoted, (ofNat t n).bitsAs t.promoted >>> amount⟩ := if_pos ⟨h, hnonneg⟩
    _ = some (ofNat t.promoted (n >>> amount)) := by rw [bitsAs_ofNat hn, hbits, ofNat]

/-- An unsigned value as a byte is the number modulo the number of bytes, whatever its type. -/
theorem bitsAs_byte_ofNat {t : CType} (hsigned : t.signed = false) (hwidth : 8 ≤ t.width)
    (n : Nat) : (ofNat t n).bitsAs .byte = BitVec.ofNat CType.byte.width n := by
  have hnumber : (ofNat t n).toInt = (n % 2 ^ t.width : Nat) := by
    simp [toInt, ofNat, hsigned]
  have hdvd : 2 ^ CType.byte.width ∣ 2 ^ t.width := Nat.pow_dvd_pow 2 hwidth
  rw [bitsAs, hnumber, BitVec.ofInt_natCast]
  refine BitVec.eq_of_toNat_eq ?_
  rw [BitVec.toNat_ofNat, BitVec.toNat_ofNat]
  exact Nat.mod_mod_of_dvd n hdvd

section Join

variable {s t : CType} {m n : Nat} (hm : m < s.limit) (hn : n < t.limit)
include hm hn

theorem bitAnd_ofNat : (ofNat s m).bitAnd (ofNat t n) = ofNat (s.common t) (m &&& n) := by
  change (⟨s.common t, (ofNat s m).bitsAs (s.common t) &&& (ofNat t n).bitsAs (s.common t)⟩ :
    CValue) = _
  rw [bitsAs_ofNat hm, bitsAs_ofNat hn, ← BitVec.ofNat_and, ofNat]

theorem bitOr_ofNat : (ofNat s m).bitOr (ofNat t n) = ofNat (s.common t) (m ||| n) := by
  change (⟨s.common t, (ofNat s m).bitsAs (s.common t) ||| (ofNat t n).bitsAs (s.common t)⟩ :
    CValue) = _
  rw [bitsAs_ofNat hm, bitsAs_ofNat hn, ← BitVec.ofNat_or, ofNat]

end Join

/-- A word joined with a byte keeps all its bits, also those that its number has above its width. -/
theorem bitOr_word {s t : CType} {m n : Nat} (ht : t.IsWord) (hs : s = .byte ∨ s = .int)
    (hn : n < s.limit) : (ofNat t m).bitOr (ofNat s n) = ofNat t (m ||| n) := by
  change (⟨t.common s, (ofNat t m).bitsAs (t.common s) ||| (ofNat s n).bitsAs (t.common s)⟩ :
    CValue) = _
  rw [ht.common hs, bitsAs_self, bitsAs_ofNat hn, ← BitVec.ofNat_or, ofNat]

end CValue

/-! ### Memories -/

/-- **What a name stands for.** -/
inductive CObject
  /-- An array of bytes. -/
  | bytes (content : List UInt8)
  /-- A variable of a type; it may not have been assigned to. -/
  | variable (type : CType) (content : Option (BitVec type.width))

/-- **A memory**: what each name in scope stands for. -/
abbrev CMemory : Type := String → Option CObject

namespace CMemory

/-- The memory with one name standing for something else. -/
def set (m : CMemory) (name : String) (o : CObject) : CMemory :=
  Function.update m name (some o)

@[simp] theorem set_self (m : CMemory) (name : String) (o : CObject) :
    m.set name o name = some o := Function.update_self ..

theorem set_of_ne (m : CMemory) {name other : String} (h : other ≠ name) (o : CObject) :
    m.set name o other = m other := Function.update_of_ne h ..

@[simp] theorem set_set (m : CMemory) (name : String) (o o' : CObject) :
    (m.set name o).set name o' = m.set name o' := Function.update_idem ..

theorem set_eq_self {m : CMemory} {name : String} {o : CObject} (h : m name = some o) :
    m.set name o = m := by
  rw [set, ← h, Function.update_eq_self]

end CMemory

/-! ### Execution -/

/-- **The value of an expression.** -/
def CExpression.eval? (m : CMemory) : CExpression → Option CValue
  | name x =>
    match m x with
    | some (.variable t (some bits)) => some ⟨t, bits⟩
    | _ => none
  | element array index =>
    match m array with
    | some (.bytes content) => content[index]?.map fun byte => ⟨.byte, byte.toBitVec⟩
    | _ => none
  | group e => e.eval? m
  | shiftLeft e amount => (e.eval? m).bind (·.shiftLeft? amount)
  | shiftRight e amount => (e.eval? m).bind (·.shiftRight? amount)
  | bitAnd e mask => (e.eval? m).bind fun v => (CValue.constant? mask).map v.bitAnd
  | bitOr left right => (left.eval? m).bind fun v => (right.eval? m).map v.bitOr
  | toByte e => (e.eval? m).map fun v => ⟨.byte, v.bitsAs .byte⟩

/-- **Assignment** to a variable or an array element, with conversion to its type. -/
def CMemory.assign? (m : CMemory) : CExpression → CValue → Option CMemory
  | .name x, v =>
    match m x with
    | some (.variable t _) => some (m.set x (.variable t (some (v.bitsAs t))))
    | _ => none
  | .element array index, v =>
    match m array with
    | some (.bytes content) =>
      if index < content.length then
        some (m.set array (.bytes (content.set index ⟨v.bitsAs .byte⟩)))
      else none
    | _ => none
  | _, _ => none

/-- **One statement executed.** A merging assignment assigns the bitwise or of what is there and of
its value. -/
def CStatement.run? (s : CStatement) (m : CMemory) : Option CMemory :=
  ((if s.merges then s.target.bitOr s.value else s.value).eval? m).bind (m.assign? s.target)

/-- **Statements executed one after another.** -/
def CStatement.runAll? (program : List CStatement) (m : CMemory) : Option CMemory :=
  program.foldlM (fun m s => s.run? m) m

@[simp] theorem CStatement.runAll?_nil (m : CMemory) : runAll? [] m = some m := rfl

@[simp] theorem CStatement.runAll?_cons (s : CStatement) (program : List CStatement)
    (m : CMemory) : runAll? (s :: program) m = (s.run? m).bind (runAll? program) := rfl

/-! ### Values of expressions -/

namespace CExpression

variable {m : CMemory} {t : CType}

theorem eval?_name {x : String} {bits : BitVec t.width}
    (h : m x = some (.variable t (some bits))) : (name x).eval? m = some ⟨t, bits⟩ := by
  rw [eval?, h]

/-- An element of an array has the value of its byte. -/
theorem eval?_element {array : String} {index : Nat} {content : List UInt8} {byte : UInt8}
    (h : m array = some (.bytes content)) (hbyte : content[index]? = some byte) :
    (element array index).eval? m = some (.ofNat .byte byte.toNat) := by
  rw [eval?, h]
  simp only [hbyte, Option.map_some, CValue.ofNat, CType.byte]
  congr 2
  exact (BitVec.ofNat_toNat 8 byte.toBitVec).symm

end CExpression

end WireCodec
