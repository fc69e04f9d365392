import Mathlib.Algebra.CharP.Two
import Mathlib.Algebra.Field.ZMod
import Mathlib.RingTheory.AdjoinRoot
import Mathlib.Tactic.ComputeDegree
import WireCodec.Proofs.Checksum.Field

/-!
# The cyclic redundancy check as a remainder

A string of bits is a polynomial over the field with two elements, the first bit being the
coefficient of the highest power (`WireCodec.Crc32.ofBits`). A byte string is one with the least
significant bit of each byte first, and so is the register: the bit that falls out of it next is the
coefficient of `X ^ 31`. The words of the register are then the remainders modulo a polynomial of
degree `32` (`WireCodec.Crc32.divisor`), whose lower coefficients are the word that is taken off
when a one falls out.

One bit of division multiplies the register by `X` modulo the divisor
(`WireCodec.Crc32.residue_step`). So the check of a byte string is the remainder of its polynomial,
moved up by the width of the register (`WireCodec.Crc32.registerPolynomial_update`). The remainders
are computed in the ring of polynomials modulo the divisor, in which `X` is a root of the divisor.

A byte need not go through the whole register: eight bits of division are made of its lowest byte
alone, and the rest only moves down (`WireCodec.Crc32.addByteBeside_eq`).
-/

namespace WireCodec

open Polynomial

namespace Crc32

/-! ### Strings of bits as polynomials -/

/-- A bit as a coefficient. -/
def coefficient (b : Bool) : ZMod 2 :=
  if b then 1 else 0

/-- **The polynomial of a string of bits**, the coefficient of the highest power first. -/
noncomputable def ofBits : List Bool → (ZMod 2)[X]
  | [] => 0
  | b :: bits => C (coefficient b) * X ^ bits.length + ofBits bits

/-- The `width` lowest bits of a number, the lowest one first. -/
def lowBits (width n : Nat) : List Bool :=
  (List.range width).map n.testBit

/-- **The bits of a byte string**, the least significant one of each byte first. -/
def dataBits (data : List UInt8) : List Bool :=
  data.flatMap fun b => lowBits 8 b.toNat

/-- **The polynomial of a register**: the bit at place `i` is the coefficient of `X ^ (31 - i)`. -/
noncomputable def registerPolynomial (register : UInt32) : (ZMod 2)[X] :=
  ∑ i ∈ Finset.range 32, C (coefficient (register.toNat.testBit i)) * X ^ (31 - i)

/-- **The polynomial that the check divides by.** -/
noncomputable def divisor : (ZMod 2)[X] :=
  X ^ 32 + X ^ 26 + X ^ 23 + X ^ 22 + X ^ 16 + X ^ 12 + X ^ 11 + X ^ 10 + X ^ 8 + X ^ 7 + X ^ 5 +
    X ^ 4 + X ^ 2 + X + 1

@[simp] theorem coefficient_false : coefficient false = 0 := rfl

@[simp] theorem coefficient_true : coefficient true = 1 := rfl

theorem coefficient_xor (a b : Bool) : coefficient (a ^^ b) = coefficient a + coefficient b := by
  cases a <;> cases b <;> decide

theorem coefficient_injective : Function.Injective coefficient := by decide

@[simp] theorem ofBits_nil : ofBits [] = 0 := rfl

@[simp] theorem ofBits_cons (b : Bool) (bits : List Bool) :
    ofBits (b :: bits) = C (coefficient b) * X ^ bits.length + ofBits bits := rfl

theorem ofBits_append (first second : List Bool) :
    ofBits (first ++ second) = ofBits first * X ^ second.length + ofBits second := by
  induction first with
  | nil => rw [List.nil_append, ofBits_nil, zero_mul, zero_add]
  | cons b first ih =>
    rw [List.cons_append, ofBits_cons, ofBits_cons, ih, List.length_append, pow_add]
    ring

@[simp] theorem length_lowBits (width n : Nat) : (lowBits width n).length = width := by
  simp [lowBits]

theorem lowBits_succ (width n : Nat) :
    lowBits (width + 1) n = n.testBit 0 :: lowBits width (n / 2) := by
  rw [lowBits, List.range_succ_eq_map, List.map_cons, List.map_map, lowBits]
  congr 1
  exact List.map_congr_left fun i _ => Nat.testBit_succ n i

theorem lowBits_concat (width n : Nat) :
    lowBits (width + 1) n = lowBits width n ++ [n.testBit width] := by
  rw [lowBits, List.range_succ, List.map_append, List.map_singleton, lowBits]

/-- The bits of zero are the zero polynomial. -/
theorem ofBits_lowBits_zero (width : Nat) : ofBits (lowBits width 0) = 0 := by
  induction width with
  | zero => rfl
  | succ width ih => rw [lowBits_succ, ofBits_cons, Nat.zero_div, ih]; simp

theorem lowBits_add (first second n : Nat) :
    lowBits (first + second) n = lowBits first n ++ lowBits second (n / 2 ^ first) := by
  rw [lowBits, List.range_add, List.map_append, List.map_map, lowBits, lowBits]
  congr 1
  refine List.map_congr_left fun i _ => ?_
  rw [Function.comp_apply, Nat.testBit_div_two_pow, Nat.add_comm]

/-- **Half a number** is the number less its lowest bit, a place further up. -/
theorem X_mul_ofBits_lowBits {width n : Nat} (h : n < 2 ^ (width + 1)) :
    X * ofBits (lowBits (width + 1) n) =
      ofBits (lowBits (width + 1) (n / 2)) + C (coefficient (n.testBit 0)) * X ^ (width + 1) := by
  have hhigh : (n / 2).testBit width = false :=
    Nat.testBit_lt_two_pow (by rw [Nat.pow_succ] at h; omega)
  rw [lowBits_concat width (n / 2), hhigh, ofBits_append, lowBits_succ, ofBits_cons, length_lowBits]
  simp only [ofBits_cons, ofBits_nil, coefficient_false, C_0, zero_mul, add_zero, List.length_cons,
    List.length_nil, zero_add, pow_succ, pow_zero, one_mul]
  ring

/-- The bit at place `i` of `width` bits is the coefficient of `X ^ (width - 1 - i)`. -/
theorem ofBits_lowBits (width n : Nat) : ofBits (lowBits width n) =
    ∑ i ∈ Finset.range width, C (coefficient (n.testBit i)) * X ^ (width - 1 - i) := by
  induction width generalizing n with
  | zero => rfl
  | succ width ih =>
    rw [lowBits_succ, ofBits_cons, length_lowBits, ih, Finset.sum_range_succ', add_comm]
    congr 1
    refine Finset.sum_congr rfl fun i _ => ?_
    rw [Nat.testBit_succ, Nat.add_sub_cancel, Nat.sub_sub, Nat.add_comm 1]

/-- **Exclusive or** adds polynomials. -/
theorem ofBits_lowBits_xor (width m n : Nat) :
    ofBits (lowBits width (m ^^^ n)) = ofBits (lowBits width m) + ofBits (lowBits width n) := by
  rw [ofBits_lowBits, ofBits_lowBits, ofBits_lowBits, ← Finset.sum_add_distrib]
  refine Finset.sum_congr rfl fun i _ => ?_
  rw [Nat.testBit_xor, coefficient_xor, C_add, add_mul]

/-- A single bit is a power of `X`. -/
theorem ofBits_lowBits_two_pow {width i : Nat} (h : i < width) :
    ofBits (lowBits width (2 ^ i)) = X ^ (width - 1 - i) := by
  rw [ofBits_lowBits, Finset.sum_eq_single i]
  · rw [Nat.testBit_two_pow_self, coefficient_true, C_1, one_mul]
  · intro j _ hne
    rw [Nat.testBit_two_pow_of_ne hne.symm, coefficient_false, C_0, zero_mul]
  · intro hi
    exact absurd (Finset.mem_range.mpr h) hi

/-! ### Registers as polynomials -/

theorem registerPolynomial_eq_ofBits (register : UInt32) :
    registerPolynomial register = ofBits (lowBits 32 register.toNat) :=
  (ofBits_lowBits 32 register.toNat).symm

@[simp] theorem registerPolynomial_zero : registerPolynomial 0 = 0 := by
  rw [registerPolynomial_eq_ofBits]
  exact ofBits_lowBits_zero 32

theorem registerPolynomial_xor (a b : UInt32) :
    registerPolynomial (a ^^^ b) = registerPolynomial a + registerPolynomial b := by
  rw [registerPolynomial_eq_ofBits, UInt32.toNat_xor, ofBits_lowBits_xor,
    ← registerPolynomial_eq_ofBits, ← registerPolynomial_eq_ofBits]

theorem coeff_registerPolynomial (register : UInt32) {i : Nat} (h : i < 32) :
    (registerPolynomial register).coeff (31 - i) = coefficient (register.toNat.testBit i) := by
  rw [registerPolynomial, finsetSum_coeff, Finset.sum_eq_single i]
  · rw [coeff_C_mul_X_pow, if_pos rfl]
  · intro j hj hne
    have hj := Finset.mem_range.mp hj
    rw [coeff_C_mul_X_pow, if_neg (by omega)]
  · exact fun hi => absurd (Finset.mem_range.mpr h) hi

/-- **A register is known from its polynomial.** -/
theorem registerPolynomial_injective : Function.Injective registerPolynomial := by
  intro a b h
  refine UInt32.toNat.inj (Nat.eq_of_testBit_eq fun i => ?_)
  by_cases hi : i < 32
  · have hcoefficient := congrArg (coeff · (31 - i)) h
    simp only [coeff_registerPolynomial _ hi] at hcoefficient
    exact coefficient_injective hcoefficient
  · have hpow : 2 ^ 32 ≤ 2 ^ i := Nat.pow_le_pow_right (by decide) (by omega)
    rw [Nat.testBit_lt_two_pow (a.toNat_lt.trans_le hpow),
      Nat.testBit_lt_two_pow (b.toNat_lt.trans_le hpow)]

/-- **The divisor** is the word of the check below its highest power. -/
theorem divisor_eq : divisor = X ^ 32 + registerPolynomial polynomial := by
  have hbits : lowBits 32 polynomial.toNat =
      [false, false, false, false, false, true, false, false, true, true, false, false, false,
        false, false, true, false, false, false, true, true, true, false, true, true, false, true,
        true, false, true, true, true] := by decide
  rw [registerPolynomial_eq_ofBits, hbits, divisor]
  simp only [ofBits_cons, ofBits_nil, coefficient_true, coefficient_false, C_0, C_1, zero_mul,
    one_mul, zero_add, add_zero, List.length_cons, List.length_nil, Nat.reduceAdd, pow_zero,
    pow_one]
  ring

/-- **One bit of division**: what falls out at the top is taken off as the divisor. -/
theorem X_mul_registerPolynomial (register : UInt32) :
    X * registerPolynomial register =
      registerPolynomial (step register) +
        C (coefficient (register.toNat.testBit 0)) * divisor := by
  have hhalf : (register >>> 1).toNat = register.toNat / 2 := by
    rw [UInt32.toNat_shiftRight]
    rfl
  have hfallen : registerPolynomial (if register.toNat % 2 = 1 then polynomial else 0) =
      C (coefficient (register.toNat.testBit 0)) * registerPolynomial polynomial := by
    rw [Nat.testBit_zero]
    by_cases h : register.toNat % 2 = 1 <;> simp [h]
  have hlt : register.toNat < 2 ^ (31 + 1) := register.toNat_lt
  have hmoved := X_mul_ofBits_lowBits hlt
  rw [← hhalf, ← registerPolynomial_eq_ofBits, ← registerPolynomial_eq_ofBits] at hmoved
  rw [hmoved, step_eq, registerPolynomial_xor, hfallen, divisor_eq]
  -- The word that is taken off comes twice, and so not at all.
  linear_combination -CharTwo.add_self_eq_zero
    (C (coefficient (register.toNat.testBit 0)) * registerPolynomial polynomial)

/-- The polynomial of a byte, at the lower end of a register. -/
theorem registerPolynomial_byte (b : UInt8) :
    registerPolynomial b.toUInt32 = ofBits (lowBits 8 b.toNat) * X ^ 24 := by
  have hhigh : b.toNat / 2 ^ 8 = 0 := Nat.div_eq_of_lt b.toNat_lt
  rw [registerPolynomial_eq_ofBits, UInt8.toNat_toUInt32, lowBits_add 8 24, hhigh, ofBits_append,
    ofBits_lowBits_zero, length_lowBits, add_zero]

/-! ### Remainders -/

theorem monic_divisor : divisor.Monic := by
  unfold divisor
  monicity!

theorem natDegree_divisor : divisor.natDegree = 32 := by
  unfold divisor
  compute_degree!

/-- **A register is a remainder**: its degree is that of one. -/
theorem degree_registerPolynomial_lt (register : UInt32) :
    (registerPolynomial register).degree < divisor.degree := by
  have hdivisor : divisor.degree = 32 := by
    rw [degree_eq_natDegree monic_divisor.ne_zero, natDegree_divisor]
    rfl
  rw [hdivisor, registerPolynomial]
  refine (degree_sum_le _ _).trans_lt ((Finset.sup_lt_iff (by decide)).mpr fun i _ => ?_)
  have hplace : ((31 - i : ℕ) : WithBot ℕ) < 32 := by
    exact_mod_cast (by omega : 31 - i < 32)
  exact (degree_C_mul_X_pow_le _ _).trans_lt hplace

/-- **The remainder that a register is**, in the ring of polynomials modulo the divisor. -/
noncomputable def residue (register : UInt32) : AdjoinRoot divisor :=
  AdjoinRoot.mk divisor (registerPolynomial register)

theorem residue_xor (a b : UInt32) : residue (a ^^^ b) = residue a + residue b := by
  rw [residue, registerPolynomial_xor, map_add, residue, residue]

@[simp] theorem residue_zero : residue 0 = 0 := by
  rw [residue, registerPolynomial_zero, map_zero]

/-- A register is the remainder of every polynomial that it is equal to modulo the divisor. -/
theorem registerPolynomial_eq_modByMonic {register : UInt32} {p : (ZMod 2)[X]}
    (h : residue register = AdjoinRoot.mk divisor p) :
    registerPolynomial register = p %ₘ divisor := by
  rw [← (modByMonic_eq_self_iff monic_divisor).mpr (degree_registerPolynomial_lt register)]
  exact modByMonic_eq_of_dvd_sub monic_divisor (AdjoinRoot.mk_eq_mk.mp h)

/-- **One bit of division multiplies by `X`.** -/
theorem residue_step (register : UInt32) :
    residue (step register) = AdjoinRoot.root divisor * residue register := by
  have h := congrArg (AdjoinRoot.mk divisor) (X_mul_registerPolynomial register)
  rw [map_mul, map_add, map_mul, AdjoinRoot.mk_self, mul_zero, add_zero, AdjoinRoot.mk_X] at h
  exact h.symm

theorem residue_steps (n : Nat) (register : UInt32) :
    residue (steps n register) = AdjoinRoot.root divisor ^ n * residue register := by
  induction n generalizing register with
  | zero => rw [steps, pow_zero, one_mul]
  | succ n ih => rw [steps, ih, residue_step, pow_succ, mul_assoc]

/-- **One byte**: the register moves up by eight places, and the byte is added above it. -/
theorem residue_addByte (register : UInt32) (b : UInt8) :
    residue (addByte register b) = AdjoinRoot.root divisor ^ 8 * residue register +
      AdjoinRoot.mk divisor (ofBits (lowBits 8 b.toNat)) * AdjoinRoot.root divisor ^ 32 := by
  have hbyte : residue b.toUInt32 =
      AdjoinRoot.mk divisor (ofBits (lowBits 8 b.toNat)) * AdjoinRoot.root divisor ^ 24 := by
    rw [residue, registerPolynomial_byte, map_mul, map_pow, AdjoinRoot.mk_X]
  rw [addByte, residue_steps, residue_xor, hbyte]
  ring

/-! ### Byte strings -/

@[simp] theorem dataBits_nil : dataBits [] = [] := rfl

@[simp] theorem dataBits_cons (b : UInt8) (data : List UInt8) :
    dataBits (b :: data) = lowBits 8 b.toNat ++ dataBits data := rfl

@[simp] theorem length_dataBits (data : List UInt8) : (dataBits data).length = 8 * data.length := by
  induction data with
  | nil => rfl
  | cons b data ih =>
    rw [dataBits_cons, List.length_append, length_lowBits, ih, List.length_cons, Nat.mul_succ,
      Nat.add_comm]

/-- **What a byte string makes of a register** is the register with the bits of the string behind
it, moved up by the width of the register. -/
theorem residue_update (register : UInt32) (data : List UInt8) :
    residue (update register data) = AdjoinRoot.mk divisor
      (registerPolynomial register * X ^ (8 * data.length) + ofBits (dataBits data) * X ^ 32) := by
  induction data generalizing register with
  | nil => simp [residue]
  | cons b data ih =>
    have hbyte := residue_addByte register b
    rw [update_cons, ih, dataBits_cons, ofBits_append, length_dataBits, List.length_cons,
      Nat.mul_succ]
    simp only [map_add, map_mul, map_pow, AdjoinRoot.mk_X, pow_add] at hbyte ⊢
    rw [← residue, hbyte, ← residue]
    ring

/-- **The check is the remainder of a division of polynomials**, also if it is computed with a byte
at a time beside the register. A byte string checks out exactly if the remainder of the whole of it
is zero. -/
theorem registerPolynomial_update (register : UInt32) (data : List UInt8) :
    registerPolynomial (update register data) =
        (registerPolynomial register * X ^ (8 * data.length) + ofBits (dataBits data) * X ^ 32) %ₘ
          divisor ∧
      data.foldl addByteBeside register = update register data ∧
      ∀ frame, Checksum.crc32.verify frame = true ↔ 4 ≤ frame.length ∧ compute frame = 0 := by
  refine ⟨registerPolynomial_eq_modByMonic (residue_update register data),
    foldl_addByteBeside register data, fun frame => ?_⟩
  by_cases h : 4 ≤ frame.length
  · rw [Checksum.verify_crc32_iff h]
    exact (and_iff_right h).symm
  · have hshort : Checksum.crc32.verify frame = false := if_neg h
    simp [hshort, h]

end Crc32

end WireCodec
