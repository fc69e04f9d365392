import Mathlib.GroupTheory.OrderOfElement
import Mathlib.Tactic.NormNum.Prime
import WireCodec.Proofs.Checksum.Division
import WireCodec.Proofs.Frame.Encode

/-!
# Two flipped bits and the order of `X`

Two flipped bits of a byte string change its polynomial by two powers of `X`, and this remains
unnoticed by the cyclic redundancy check only if the powers are equal modulo the divisor. So the
question is how long it takes until the powers of `X` repeat: that is the order of `X` modulo the
divisor, and it is the greatest there can be, the number of the remainders other than zero
(`WireCodec.Crc32.orderOf_root`). A byte string whose bits are fewer than that is too short for two
of its bits to be flipped unnoticed (`WireCodec.Checksum.verify_flipBit_flipBit`).

The order is found without going through the powers. It divides a number `n` if the power with
exponent `n` is one, and is no less if the powers with the exponents `n / p` are not, for every
prime divisor `p` of `n`. Powers with exponents of `32` binary digits are computed by squaring
(`WireCodec.Crc32.powerOfX`), on the words of the register.
-/

namespace WireCodec

open Polynomial

namespace Crc32

/-! ### Powers of `X` as registers -/

/-- The register whose polynomial is one. -/
def one : UInt32 := 0x80000000

/-- **The product of two registers**, as polynomials modulo the divisor: the coefficients of the
second one are taken from the highest on, with one bit of division before each. -/
def product (a b : UInt32) : UInt32 :=
  (lowBits 32 b.toNat).foldl (fun sum bit => step sum ^^^ if bit then a else 0) 0

/-- The square of a register. Its number is found first, so that what it stands for is computed once
and not as often as the product looks at it. -/
def square (register : UInt32) : UInt32 :=
  match register.toNat with
  | 0 => 0
  | n + 1 => product (.ofNat (n + 1)) (.ofNat (n + 1))

/-- **The power of `X`** modulo the divisor whose exponent has these binary digits, the lowest one
first. -/
def powerOfX : List Bool → UInt32
  | [] => one
  | odd :: digits =>
    if odd then step (square (powerOfX digits)) else square (powerOfX digits)

theorem residue_one : residue one = 1 := by
  rw [residue, registerPolynomial_eq_ofBits, show one.toNat = 2 ^ 31 from rfl,
    ofBits_lowBits_two_pow (by decide)]
  exact map_one _

/-- **A register is known from its remainder.** -/
theorem residue_injective : Function.Injective residue := by
  intro a b h
  refine registerPolynomial_injective ?_
  rw [registerPolynomial_eq_modByMonic h]
  exact (modByMonic_eq_self_iff monic_divisor).mpr (degree_registerPolynomial_lt b)

/-- The coefficients that have been taken make up the first factor of what comes behind them. -/
theorem residue_foldl (a sum : UInt32) (bits : List Bool) :
    residue (bits.foldl (fun sum bit => step sum ^^^ if bit then a else 0) sum) =
      residue sum * AdjoinRoot.root divisor ^ bits.length +
        residue a * AdjoinRoot.mk divisor (ofBits bits) := by
  induction bits generalizing sum with
  | nil => simp
  | cons bit bits ih =>
    have hbit : residue (if bit then a else 0) =
        residue a * AdjoinRoot.mk divisor (C (coefficient bit)) := by
      cases bit <;> simp
    rw [List.foldl_cons, ih, residue_xor, residue_step, hbit, ofBits_cons, List.length_cons]
    simp only [map_add, map_mul, map_pow, AdjoinRoot.mk_X]
    ring

theorem residue_product (a b : UInt32) : residue (product a b) = residue a * residue b := by
  rw [product, residue_foldl, residue_zero, zero_mul, zero_add, ← registerPolynomial_eq_ofBits,
    ← residue]

theorem residue_square (register : UInt32) :
    residue (square register) = residue register * residue register := by
  rw [square]
  split
  · next hzero =>
    obtain rfl : register = 0 := UInt32.toNat.inj hzero
    rw [residue_zero, mul_zero]
  · next n hvalue =>
    have hregister : UInt32.ofNat (n + 1) = register := by
      rw [← Nat.succ_eq_add_one, ← hvalue, UInt32.ofNat_toNat]
    rw [hregister, residue_product]

theorem residue_powerOfX {width n : Nat} (h : n < 2 ^ width) :
    residue (powerOfX (lowBits width n)) = AdjoinRoot.root divisor ^ n := by
  induction width generalizing n with
  | zero =>
    obtain rfl : n = 0 := by simpa using h
    rw [pow_zero]
    exact residue_one
  | succ width ih =>
    have hsquare : residue (square (powerOfX (lowBits width (n / 2)))) =
        AdjoinRoot.root divisor ^ (2 * (n / 2)) := by
      rw [residue_square, ih (by rw [Nat.pow_succ] at h; omega), ← pow_add, Nat.two_mul]
    rw [lowBits_succ, powerOfX, Nat.testBit_zero]
    by_cases hodd : n % 2 = 1
    · rw [if_pos (decide_eq_true hodd), residue_step, hsquare, ← pow_succ']
      congr 1
      omega
    · rw [if_neg (by simpa using hodd), hsquare]
      congr 1
      omega

theorem root_pow_eq_one_iff {n : Nat} (h : n < 2 ^ 32) :
    AdjoinRoot.root divisor ^ n = 1 ↔ powerOfX (lowBits 32 n) = one := by
  rw [← residue_powerOfX h, ← residue_one, residue_injective.eq_iff]

/-! ### The order of `X` -/

theorem prime_dvd_order {p : ℕ} (hp : p.Prime) (h : p ∣ 2 ^ 32 - 1) :
    p ∈ [3, 5, 17, 257, 65537] := by
  have hfactors : 2 ^ 32 - 1 = 3 * 5 * 17 * 257 * 65537 := by norm_num
  rw [hfactors] at h
  simp only [hp.dvd_mul] at h
  have heq : ∀ q : ℕ, q.Prime → p ∣ q → p = q := fun q hq hpq =>
    (Nat.prime_dvd_prime_iff_eq hp hq).mp hpq
  rcases h with (((h | h) | h) | h) | h
  · rw [heq 3 (by norm_num) h]; decide
  · rw [heq 5 (by norm_num) h]; decide
  · rw [heq 17 (by norm_num) h]; decide
  · rw [heq 257 (by norm_num) h]; decide
  · rw [heq 65537 (by norm_num) h]; decide

/-- **The powers of `X` do not repeat** before there is one for every remainder other than zero. -/
theorem orderOf_root : orderOf (AdjoinRoot.root divisor) = 2 ^ 32 - 1 := by
  refine orderOf_eq_of_pow_and_pow_div_prime (by decide) ?_ fun p hp hdvd => ?_
  · rw [root_pow_eq_one_iff (by decide)]
    decide +kernel
  · have hall : ∀ p ∈ [3, 5, 17, 257, 65537],
        powerOfX (lowBits 32 ((2 ^ 32 - 1) / p)) ≠ one := by decide +kernel
    rw [Ne, root_pow_eq_one_iff (lt_of_le_of_lt (Nat.div_le_self _ _) (by decide))]
    exact hall p (prime_dvd_order hp hdvd)

/-! ### Flipped bits -/

/-- **A byte string with one bit flipped**, the bits being counted from the least significant one of
the first byte on. -/
def flipBit (data : List UInt8) (i : Nat) : List UInt8 :=
  data.modify (i / 8) (· ^^^ UInt8.ofNat (2 ^ (i % 8)))

@[simp] theorem length_flipBit (data : List UInt8) (i : Nat) :
    (flipBit data i).length = data.length :=
  List.length_modify _ _ _

theorem flipBit_cons_of_lt (b : UInt8) (data : List UInt8) {i : Nat} (h : i < 8) :
    flipBit (b :: data) i = (b ^^^ UInt8.ofNat (2 ^ i)) :: data := by
  rw [flipBit, Nat.div_eq_of_lt h, Nat.mod_eq_of_lt h, List.modify_zero_cons]

theorem flipBit_cons_add (b : UInt8) (data : List UInt8) (i : Nat) :
    flipBit (b :: data) (i + 8) = b :: flipBit data i := by
  rw [flipBit, Nat.add_div_right i (by decide), Nat.add_mod_right, List.modify_succ_cons, flipBit]

/-- **A flipped bit** adds a power of `X` to the polynomial of a byte string. -/
theorem ofBits_dataBits_flipBit {data : List UInt8} {i : Nat} (h : i < 8 * data.length) :
    ofBits (dataBits (flipBit data i)) =
      ofBits (dataBits data) + X ^ (8 * data.length - 1 - i) := by
  induction data generalizing i with
  | nil => exact absurd h (Nat.not_lt_zero i)
  | cons b data ih =>
    rw [List.length_cons, Nat.mul_succ] at h
    by_cases hi : i < 8
    · have hbit : (UInt8.ofNat (2 ^ i)).toNat = 2 ^ i := by
        have hpow : 2 ^ i < 2 ^ 8 := Nat.pow_lt_pow_right (by decide) hi
        rw [UInt8.toNat_ofNat', Nat.mod_eq_of_lt hpow]
      have hplace : 8 * (data.length + 1) - 1 - i = 8 - 1 - i + 8 * data.length := by omega
      rw [flipBit_cons_of_lt b data hi, dataBits_cons, dataBits_cons, ofBits_append, ofBits_append,
        UInt8.toNat_xor, hbit, ofBits_lowBits_xor, ofBits_lowBits_two_pow hi, length_dataBits,
        List.length_cons, hplace, pow_add]
      ring
    · obtain ⟨i, rfl⟩ := Nat.exists_eq_add_of_le' (Nat.le_of_not_lt hi)
      have hplace : 8 * (data.length + 1) - 1 - (i + 8) = 8 * data.length - 1 - i := by omega
      rw [flipBit_cons_add, dataBits_cons, dataBits_cons, ofBits_append, ofBits_append,
        ih (by omega), length_dataBits, length_dataBits, length_flipBit, List.length_cons, hplace]
      ring

/-- What a flipped bit adds to the check. -/
theorem residue_compute_flipBit {data : List UInt8} {i : Nat} (h : i < 8 * data.length) :
    residue (compute (flipBit data i)) = residue (compute data) +
      AdjoinRoot.root divisor ^ (8 * data.length - 1 - i) * AdjoinRoot.root divisor ^ 32 := by
  rw [compute, compute, residue_update, residue_update, ofBits_dataBits_flipBit h]
  simp only [registerPolynomial_zero, length_flipBit, zero_mul, zero_add, add_mul, map_add, map_mul,
    map_pow, AdjoinRoot.mk_X]

/-- **Two flipped bits change the check** of a byte string with fewer than `2 ^ 32` bits. -/
theorem compute_flipBit_flipBit_ne {data : List UInt8} {i j : Nat}
    (hlength : 8 * data.length < 2 ^ 32) (hi : i < 8 * data.length) (hj : j < 8 * data.length)
    (hne : i ≠ j) : compute (flipBit (flipBit data i) j) ≠ compute data := by
  intro heq
  have htwo : (2 : AdjoinRoot divisor) = 0 := by
    rw [← map_ofNat (AdjoinRoot.of divisor) 2, show (2 : ZMod 2) = 0 from rfl, map_zero]
  have hunit : IsUnit (AdjoinRoot.root divisor ^ 32) :=
    (IsUnit.of_pow_eq_one (pow_orderOf_eq_one _) (by rw [orderOf_root]; decide)).pow 32
  have hsecond : j < 8 * (flipBit data i).length := by rwa [length_flipBit]
  have hsum := residue_compute_flipBit hsecond
  rw [heq, residue_compute_flipBit hi, length_flipBit] at hsum
  have hpowers : AdjoinRoot.root divisor ^ (8 * data.length - 1 - i) =
      AdjoinRoot.root divisor ^ (8 * data.length - 1 - j) := by
    refine hunit.mul_right_cancel ?_
    linear_combination -hsum - htwo *
      (AdjoinRoot.root divisor ^ (8 * data.length - 1 - j) * AdjoinRoot.root divisor ^ 32)
  have hplaces := pow_injOn_Iio_orderOf (x := AdjoinRoot.root divisor)
    (Set.mem_Iio.mpr (by rw [orderOf_root]; omega))
    (Set.mem_Iio.mpr (by rw [orderOf_root]; omega)) hpowers
  omega

end Crc32

namespace FrameFormat

variable {f : FrameFormat} {packetType : UInt8} {body frame : List UInt8}

/-- **The greatest frames** are those of the longest body that can be declared. -/
theorem length_le_of_encode_eq_ok (h : f.encode packetType body = .ok frame) :
    frame.length ≤ 65544 := by
  have hlength := length_of_encode h
  obtain ⟨hbody, -, -⟩ := encode_eq_ok_iff.mp h
  have hoverhead : f.lengthWidth.maxBody + f.overhead ≤ 65544 := by
    rw [overhead, headerLength]
    cases f.lengthWidth <;> cases f.checksum <;> decide
  omega

end FrameFormat

namespace Checksum

/-- **Two flipped bits are noticed** in every byte string that is not longer than the longest frame
there is, wherever they are. -/
theorem verify_flipBit_flipBit :
    (∀ {frame : List UInt8} {i j : Nat}, crc32.fieldLength ≤ frame.length → frame.length ≤ 65544 →
        crc32.verify frame = true → i < 8 * frame.length → j < 8 * frame.length → i ≠ j →
        crc32.verify (Crc32.flipBit (Crc32.flipBit frame i) j) = false) ∧
      (∀ {f : FrameFormat} {packetType : UInt8} {body frame : List UInt8},
        f.encode packetType body = .ok frame → frame.length ≤ 65544) ∧
      ∃ (f : FrameFormat) (packetType : UInt8) (body frame : List UInt8),
        f.checksum = .crc32 ∧ f.HasRoom ∧ f.encode packetType body = .ok frame ∧
          frame.length = 65544 := by
  refine ⟨fun {frame i j} hfield hlength h hi hj hne => ?_,
    FrameFormat.length_le_of_encode_eq_ok, ?_⟩
  · rw [Bool.eq_false_iff]
    intro hflipped
    rw [verify_crc32_iff hfield] at h
    rw [verify_crc32_iff (by simpa using hfield)] at hflipped
    exact Crc32.compute_flipBit_flipBit_ne (by omega) hi hj hne (hflipped.trans h.symm)
  · let f := (FrameFormat.ofSync 0xA5 0x5A).withLengthWidth .two
    obtain ⟨body, hbody⟩ : ∃ body : List UInt8, body.length = 65535 :=
      ⟨List.replicate 65535 0, List.length_replicate⟩
    have hencode : f.encode 0 body = .ok _ :=
      FrameFormat.encode_eq_ok_iff.mpr ⟨by rw [hbody]; decide, by rw [hbody]; decide, rfl⟩
    refine ⟨f, 0, body, _, rfl, by decide, hencode, ?_⟩
    rw [FrameFormat.length_of_encode hencode, hbody]
    rfl

/-- A bit of the first byte and one of the field are flipped in the frame of a body of two bytes. -/
theorem verify_flipBit_flipBit_ends :
    let f := FrameFormat.ofSync 0xA5 0x5A
    let frame := [0xA5, 0x5A, 1, 2, 0xA5, 0x5A, 122, 20, 132, 216]
    f.encode 1 [0xA5, 0x5A] = .ok frame ∧ frame.length ≤ 65544 ∧ crc32.verify frame = true ∧
      crc32.verify (Crc32.flipBit (Crc32.flipBit frame 3) 79) = false := by
  intro f frame
  have hencode : f.encode 1 [0xA5, 0x5A] = .ok frame := by decide +kernel
  have hlength : frame.length ≤ 65544 := verify_flipBit_flipBit.2.1 hencode
  have hverify : crc32.verify frame = true := by decide +kernel
  exact ⟨hencode, hlength, hverify, verify_flipBit_flipBit.1 (by decide) hlength hverify (by decide)
    (by decide) (by decide)⟩

end Checksum

end WireCodec
