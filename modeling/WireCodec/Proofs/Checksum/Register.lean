import Mathlib.Data.Nat.Bitwise
import WireCodec.ByteOrder
import WireCodec.Checksum.Crc32

/-!
# The register of the cyclic redundancy check

Every bit of division is linear in exclusive or (`WireCodec.Crc32.step_xor`), and the register
forgets nothing on the way (`WireCodec.Crc32.eq_zero_of_steps`): if a one fell out, the highest bit
of the polynomial says so. What two byte strings of one length make of the register therefore
differs as the string of their differences makes of it (`WireCodec.Crc32.update_xor`), and up to
four bytes fit into the register as a whole (`WireCodec.Crc32.update_eq_steps`), so that no burst of
differences of that length is lost (`WireCodec.Crc32.compute_ne_of_isBurst`).
-/

namespace WireCodec

namespace Crc32

/-! ### Division is linear -/

theorem and_one_eq_one_iff (register : UInt32) : register &&& 1 = 1 ↔ register.toNat % 2 = 1 := by
  rw [← UInt32.toNat_inj, UInt32.toNat_and, UInt32.toNat_one, Nat.and_one_is_mod]

/-- One bit of division, with what is taken off as one word. -/
theorem step_eq (register : UInt32) :
    step register =
      register >>> 1 ^^^ if register.toNat % 2 = 1 then polynomial else 0 := by
  by_cases h : register.toNat % 2 = 1
  · rw [step, if_pos ((and_one_eq_one_iff register).mpr h), if_pos h]
  · rw [step, if_neg (fun hc => h ((and_one_eq_one_iff register).mp hc)), if_neg h,
      UInt32.xor_zero]

/-- **One bit of division is linear.** -/
theorem step_xor (a b : UInt32) : step (a ^^^ b) = step a ^^^ step b := by
  have hodd : (a ^^^ b).toNat % 2 = (a.toNat + b.toNat) % 2 := by
    rw [UInt32.toNat_xor, Nat.xor_mod_two_eq]
  have hpolynomial : (if (a ^^^ b).toNat % 2 = 1 then polynomial else 0) =
      (if a.toNat % 2 = 1 then polynomial else 0) ^^^
        (if b.toNat % 2 = 1 then polynomial else 0) := by
    rw [hodd]
    rcases Nat.mod_two_eq_zero_or_one a.toNat with ha | ha <;>
      rcases Nat.mod_two_eq_zero_or_one b.toNat with hb | hb <;>
      simp [Nat.add_mod, ha, hb]
  rw [step_eq, step_eq a, step_eq b, hpolynomial, UInt32.shiftRight_xor]
  ac_rfl

@[simp] theorem step_zero : step 0 = 0 := by decide

/-- Any number of bits of division is linear. -/
theorem steps_xor (n : Nat) (a b : UInt32) : steps n (a ^^^ b) = steps n a ^^^ steps n b := by
  induction n generalizing a b with
  | zero => rfl
  | succ n ih => rw [steps, step_xor, ih, steps, steps]

@[simp] theorem steps_zero (n : Nat) : steps n 0 = 0 := by
  induction n with
  | zero => rfl
  | succ n ih => rw [steps, step_zero, ih]

/-! ### Nothing is forgotten -/

/-- A register that becomes zero was zero. -/
theorem eq_zero_of_step {register : UInt32} (h : step register = 0) : register = 0 := by
  have hhalf : (register >>> 1).toNat = register.toNat / 2 := by
    rw [UInt32.toNat_shiftRight]
    rfl
  rw [step_eq, UInt32.xor_eq_zero_iff] at h
  by_cases hodd : register.toNat % 2 = 1
  · -- The highest bit of the polynomial is not one of half a register.
    rw [if_pos hodd] at h
    have hvalue : (register >>> 1).toNat = 0xEDB88320 := by
      rw [h]
      rfl
    have hlt := register.toNat_lt
    omega
  · rw [if_neg hodd] at h
    have hvalue : (register >>> 1).toNat = 0 := by
      rw [h]
      rfl
    apply UInt32.toNat.inj
    rw [UInt32.toNat_zero]
    omega

/-- **Division forgets nothing.** -/
theorem eq_zero_of_steps {n : Nat} {register : UInt32} (h : steps n register = 0) :
    register = 0 := by
  induction n generalizing register with
  | zero => exact h
  | succ n ih => exact eq_zero_of_step (ih h)

/-- As long as only zeros fall out, the register just moves down. -/
theorem steps_ofNat_mul (n value : Nat) (h : value * 2 ^ n < 2 ^ 32) :
    steps n (UInt32.ofNat (value * 2 ^ n)) = UInt32.ofNat value := by
  induction n with
  | zero => rw [Nat.pow_zero, Nat.mul_one, steps]
  | succ n ih =>
    rw [Nat.pow_succ, ← Nat.mul_assoc] at h ⊢
    have heven : (UInt32.ofNat (value * 2 ^ n * 2)).toNat = value * 2 ^ n * 2 := by
      rw [UInt32.toNat_ofNat', Nat.mod_eq_of_lt h]
    have hhalf : UInt32.ofNat (value * 2 ^ n * 2) >>> 1 = UInt32.ofNat (value * 2 ^ n) := by
      apply UInt32.toNat.inj
      have hlt : value * 2 ^ n < 2 ^ 32 := by omega
      rw [UInt32.toNat_shiftRight, heven, UInt32.toNat_ofNat', Nat.mod_eq_of_lt hlt]
      exact Nat.mul_div_cancel (value * 2 ^ n) (by decide : 0 < 2)
    have hstep : step (UInt32.ofNat (value * 2 ^ n * 2)) = UInt32.ofNat (value * 2 ^ n) := by
      rw [step_eq, heven, if_neg (by omega), UInt32.xor_zero, hhalf]
    rw [steps, hstep, ih (by omega)]

/-! ### Bytes -/

/-- **Where two strings of one length differ**, byte by byte. -/
def differences (first second : List UInt8) : List UInt8 :=
  List.zipWith (· ^^^ ·) first second

/-- **What two strings make of two registers** differs as their differences make of the difference
of the registers. -/
theorem update_xor (a b : UInt32) {first second : List UInt8}
    (h : first.length = second.length) :
    update a first ^^^ update b second = update (a ^^^ b) (differences first second) := by
  induction first generalizing a b second with
  | nil =>
    obtain rfl := List.length_eq_zero_iff.mp h.symm
    rfl
  | cons x first ih =>
    obtain ⟨y, second, rfl⟩ := List.exists_cons_of_length_eq_add_one h.symm
    have hbyte : addByte a x ^^^ addByte b y = addByte (a ^^^ b) (x ^^^ y) := by
      rw [addByte, addByte, addByte, ← steps_xor, UInt8.toUInt32_xor]
      congr 1
      ac_rfl
    rw [update_cons, update_cons, ih _ _ (Nat.succ.inj h), hbyte]
    rfl

/-- The lowest byte of a word and the bytes above it have no bits in common. -/
theorem ofNat_byte_add (b : UInt8) (n : Nat) :
    UInt32.ofNat (b.toNat + 256 * n) = b.toUInt32 ^^^ UInt32.ofNat (n * 2 ^ 8) := by
  have hxor : b.toNat + 256 * n = b.toNat ^^^ n * 2 ^ 8 := by
    refine Nat.eq_of_testBit_eq fun i => ?_
    rw [show b.toNat + 256 * n = 2 ^ 8 * n + b.toNat by omega,
      Nat.testBit_two_pow_mul_add n b.toNat_lt, Nat.testBit_xor, Nat.testBit_mul_two_pow]
    by_cases hi : i < 8
    · simp [hi, Nat.not_le.mpr hi]
    · have hhigh : b.toNat.testBit i = false := Nat.testBit_lt_two_pow
        (Nat.lt_of_lt_of_le b.toNat_lt (Nat.pow_le_pow_right (by decide) (by omega)))
      simp [hi, hhigh, Nat.le_of_not_lt hi]
  rw [hxor, UInt32.ofNat_xor, UInt32.ofNat_uInt8ToNat]

/-- **Up to four bytes are taken in as one word.** -/
theorem update_eq_steps (register : UInt32) {data : List UInt8} (h : data.length ≤ 4) :
    update register data =
      steps (8 * data.length) (register ^^^ UInt32.ofNat (ofLittleEndian data)) := by
  induction data generalizing register with
  | nil => exact (UInt32.xor_zero).symm
  | cons b data ih =>
    rw [List.length_cons] at h
    have hlt := ofLittleEndian_lt data
    have hroom : ofLittleEndian data * 2 ^ 8 < 2 ^ 32 := by
      have hpow : 256 ^ data.length ≤ 256 ^ 3 := Nat.pow_le_pow_right (by decide) (by omega)
      omega
    calc update register (b :: data)
        = steps (8 * data.length)
            (addByte register b ^^^ UInt32.ofNat (ofLittleEndian data)) := by
          rw [update_cons, ih _ (by omega)]
      _ = steps (8 * data.length) (steps 8 (register ^^^ b.toUInt32 ^^^
            UInt32.ofNat (ofLittleEndian data * 2 ^ 8))) := by
          rw [steps_xor 8, steps_ofNat_mul 8 _ hroom, addByte]
      _ = steps (8 * (data.length + 1))
            (register ^^^ UInt32.ofNat (ofLittleEndian (b :: data))) := by
          rw [← steps_add, ofLittleEndian_cons, ofNat_byte_add, UInt32.xor_assoc, Nat.mul_add,
            Nat.mul_one, Nat.add_comm 8]

/-- Take in one byte beside the register: the register moves down by a byte, and takes on what eight
bits of division make of the byte that falls out together with the new one. -/
def addByteBeside (register : UInt32) (byte : UInt8) : UInt32 :=
  register >>> 8 ^^^ steps 8 ((register ^^^ byte.toUInt32) &&& 0xFF)

/-- **A byte at a time**: division goes on in the lowest byte alone. -/
theorem addByteBeside_eq (register : UInt32) (byte : UInt8) :
    addByteBeside register byte = addByte register byte := by
  have hbound : register.toNat / 2 ^ 8 * 2 ^ 8 < 2 ^ 32 :=
    Nat.lt_of_le_of_lt (Nat.div_mul_le_self _ _) register.toNat_lt
  have hdown : UInt32.ofNat (register.toNat / 2 ^ 8) = register >>> 8 := by
    apply UInt32.toNat.inj
    rw [UInt32.toNat_shiftRight, UInt32.toNat_ofNat', Nat.mod_eq_of_lt (by omega),
      Nat.shiftRight_eq_div_pow]
    rfl
  -- The new byte is within the lowest one of the register.
  have hsplit : register ^^^ byte.toUInt32 =
      ((register ^^^ byte.toUInt32) &&& 0xFF) ^^^
        UInt32.ofNat (register.toNat / 2 ^ 8 * 2 ^ 8) := by
    have hmask : UInt32.toNat 0xFF = 2 ^ 8 - 1 := rfl
    apply UInt32.toNat.inj
    rw [UInt32.toNat_xor, UInt32.toNat_xor, UInt32.toNat_and, UInt32.toNat_xor, UInt32.toNat_ofNat',
      Nat.mod_eq_of_lt hbound, UInt8.toNat_toUInt32, hmask]
    refine Nat.eq_of_testBit_eq fun i => ?_
    simp only [Nat.testBit_xor, Nat.testBit_and, Nat.testBit_two_pow_sub_one,
      Nat.testBit_mul_two_pow, Nat.testBit_div_two_pow]
    by_cases hi : i < 8
    · simp [hi, Nat.not_le.mpr hi]
    · have hhigh : byte.toNat.testBit i = false := Nat.testBit_lt_two_pow
        (Nat.lt_of_lt_of_le byte.toNat_lt (Nat.pow_le_pow_right (by decide) (by omega)))
      simp [hi, hhigh, Nat.le_of_not_lt hi]
  rw [addByte, addByteBeside]
  calc register >>> 8 ^^^ steps 8 ((register ^^^ byte.toUInt32) &&& 0xFF)
      = steps 8 ((register ^^^ byte.toUInt32) &&& 0xFF) ^^^
          steps 8 (UInt32.ofNat (register.toNat / 2 ^ 8 * 2 ^ 8)) := by
        rw [steps_ofNat_mul 8 _ hbound, hdown, UInt32.xor_comm]
    _ = steps 8 (register ^^^ byte.toUInt32) := by rw [← steps_xor, ← hsplit]

/-- The check is the same if every byte is taken in beside the register. -/
theorem foldl_addByteBeside (register : UInt32) (data : List UInt8) :
    data.foldl addByteBeside register = update register data := by
  rw [update, funext fun register => funext (addByteBeside_eq register)]

/-! ### Bursts -/

/-- **The differences of two byte strings form a burst**: they are within four bytes in a row. -/
def IsBurst (first second : List UInt8) : Prop :=
  ∃ start, ∀ i, first[i]? ≠ second[i]? → start ≤ i ∧ i < start + 4

/-- Where two strings agree, there is no difference. -/
theorem eq_zero_of_differences {first second : List UInt8} {i : Nat} {d : UInt8}
    (h : first[i]? = second[i]?) (hd : (differences first second)[i]? = some d) : d = 0 := by
  rw [differences, List.getElem?_zipWith, h] at hd
  cases hi : second[i]? with
  | none => rw [hi] at hd; cases hd
  | some b =>
    rw [hi] at hd
    exact (Option.some.inj hd).symm.trans UInt8.xor_self

/-- Strings of one length without a difference are equal. -/
theorem eq_of_differences {first second : List UInt8} (h : first.length = second.length)
    (hzero : ∀ d ∈ differences first second, d = 0) : first = second := by
  induction first generalizing second with
  | nil => exact (List.length_eq_zero_iff.mp h.symm).symm
  | cons x first ih =>
    obtain ⟨y, second, rfl⟩ := List.exists_cons_of_length_eq_add_one h.symm
    obtain ⟨hfirst, hothers⟩ := List.forall_mem_cons.mp hzero
    rw [UInt8.xor_eq_zero_iff.mp hfirst, ih (Nat.succ.inj h) hothers]

theorem addByte_zero (register : UInt32) : addByte register 0 = steps 8 register := by
  rw [addByte, show (0 : UInt8).toUInt32 = 0 from rfl, UInt32.xor_zero]

theorem update_zero_of_zeros {data : List UInt8} (h : ∀ b ∈ data, b = 0) : update 0 data = 0 := by
  induction data with
  | nil => rfl
  | cons b data ih =>
    obtain ⟨rfl, hothers⟩ := List.forall_mem_cons.mp h
    rw [update_cons, addByte_zero, steps_zero, ih hothers]

/-- Zeros do not bring a register to zero. -/
theorem eq_zero_of_update_zeros {register : UInt32} {data : List UInt8} (h : ∀ b ∈ data, b = 0)
    (hupdate : update register data = 0) : register = 0 := by
  induction data generalizing register with
  | nil => exact hupdate
  | cons b data ih =>
    obtain ⟨rfl, hothers⟩ := List.forall_mem_cons.mp h
    rw [update_cons, addByte_zero] at hupdate
    exact eq_zero_of_steps (ih hothers hupdate)

theorem eq_zero_of_ofLittleEndian {data : List UInt8} (h : ofLittleEndian data = 0) :
    ∀ b ∈ data, b = 0 := by
  induction data with
  | nil => exact fun _ hb => absurd hb List.not_mem_nil
  | cons b data ih =>
    rw [ofLittleEndian_cons] at h
    refine List.forall_mem_cons.mpr ⟨UInt8.toNat.inj ?_, ih (by omega)⟩
    change b.toNat = 0
    omega

/-- Up to four bytes that leave the register at zero are zeros. -/
theorem eq_zero_of_update_zero {data : List UInt8} (hlength : data.length ≤ 4)
    (h : update 0 data = 0) : ∀ b ∈ data, b = 0 := by
  have hlt : ofLittleEndian data < 2 ^ 32 :=
    Nat.lt_of_lt_of_le (ofLittleEndian_lt data) (Nat.pow_le_pow_right (by decide) hlength)
  rw [update_eq_steps 0 hlength, UInt32.zero_xor] at h
  have hvalue := congrArg UInt32.toNat (eq_zero_of_steps h)
  rw [UInt32.toNat_ofNat', Nat.mod_eq_of_lt hlt] at hvalue
  exact eq_zero_of_ofLittleEndian hvalue

/-- **No burst is lost**: byte strings of one length whose differences form a burst have different
checks. -/
theorem compute_ne_of_isBurst {first second : List UInt8} (hlength : first.length = second.length)
    (hne : first ≠ second) (hburst : IsBurst first second) : compute first ≠ compute second := by
  intro heq
  obtain ⟨start, hburst⟩ := hburst
  let before := (differences first second).take start
  let burst := ((differences first second).drop start).take 4
  let behind := ((differences first second).drop start).drop 4
  have hsplit : differences first second = before ++ (burst ++ behind) := by
    rw [List.take_append_drop, List.take_append_drop]
  have houtside : ∀ i d, ¬(start ≤ i ∧ i < start + 4) → (differences first second)[i]? = some d →
      d = 0 := fun i d hi hd =>
    eq_zero_of_differences (not_not.mp fun hdiffer => hi (hburst i hdiffer)) hd
  have hbefore : ∀ d ∈ before, d = 0 := fun d hd => by
    obtain ⟨i, hi⟩ := List.mem_iff_getElem?.mp hd
    rw [List.getElem?_take] at hi
    split at hi
    · exact houtside i d (by omega) hi
    · cases hi
  have hbehind : ∀ d ∈ behind, d = 0 := fun d hd => by
    obtain ⟨i, hi⟩ := List.mem_iff_getElem?.mp hd
    rw [List.getElem?_drop, List.getElem?_drop] at hi
    exact houtside (start + (4 + i)) d (by omega) hi
  -- The differences leave the register at zero, so the burst does.
  have hupdate : update 0 (differences first second) = 0 := by
    have hxor := update_xor 0 0 hlength
    rw [UInt32.xor_self] at hxor
    rw [← hxor, UInt32.xor_eq_zero_iff]
    exact heq
  rw [hsplit, update_append, update_append, update_zero_of_zeros hbefore] at hupdate
  have hmiddle : ∀ d ∈ burst, d = 0 :=
    eq_zero_of_update_zero (List.length_take_le 4 _) (eq_zero_of_update_zeros hbehind hupdate)
  refine hne (eq_of_differences hlength fun d hd => ?_)
  rw [hsplit, List.mem_append, List.mem_append] at hd
  rcases hd with hd | hd | hd
  · exact hbefore d hd
  · exact hmiddle d hd
  · exact hbehind d hd

end Crc32

end WireCodec
