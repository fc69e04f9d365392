import WireCodec.BitField.Cursor
import WireCodec.Proofs.BitField.Access

/-!
# Bit fields, byte by byte

The three ways to get at a bit field, as loops over the bytes of a buffer.
`WireCodec.BitField.writeByBytes` and `WireCodec.BitField.readByBytes` treat a field that fits into
a byte by itself; of another one they take the bits up to the first boundary of bytes, then whole
bytes, then the bits that are left. `WireCodec.BitField.overwriteByBytes` takes as many bits at a
time as there is room for in the byte. Each access, each shift and each difference in them could
fail (`WireCodec.BufferRun`).

No shift and no difference does. Each loop goes through the fragments of the field
(`WireCodec.BitField.writeByBytes_eq`, `WireCodec.BitField.overwriteByBytes_eq`,
`WireCodec.BitField.readByBytes_eq`). So it does what `WireCodec.BitField.write?`,
`WireCodec.BitField.overwrite?` or `WireCodec.BitField.read?` does, gets at the bytes of the field
only, and fails exactly on a field that is not in the buffer (`WireCodec.BitField.byBytes_exact`).
-/

namespace WireCodec

namespace BitField

open BufferRun

variable {f : BitField}

/-! ### Sequential writing -/

/-- Write the bits of a value from a boundary of bytes on: bytes are assigned as long as eight bits
remain, and what is left of the bits is merged into the next one. -/
def writeRest (value : UInt64) (index remaining : ℕ) : BufferRun Unit :=
  if 8 ≤ remaining then do
    let part ← shiftDown value (remaining - 8)
    update index fun _ => part.toUInt8
    writeRest value (index + 1) (remaining - 8)
  else if 0 < remaining then do
    let part ← shiftUp value (← minus 8 remaining)
    update index fun old => old ||| part.toUInt8
  else pure ()
termination_by remaining

/-- **Sequential writing, byte by byte.** -/
def writeByBytes (f : BitField) (value : UInt64) : BufferRun Unit :=
  let index := f.offset / 8
  let bit := f.offset % 8
  if f.width = 0 then pure ()
  else if bit + f.width ≤ 8 then do
    let part ← shiftUp value (← minus 8 (bit + f.width))
    if bit = 0 then update index fun _ => part.toUInt8
    else update index fun old => old ||| part.toUInt8
  else if bit = 0 then writeRest value index f.width
  else do
    let remaining ← minus f.width (← minus 8 bit)
    let part ← shiftDown value remaining
    update index fun old => old ||| part.toUInt8
    writeRest value (index + 1) remaining

theorem toUInt8_shiftUp (value : UInt64) {places : ℕ} (h : places < 64) :
    (value <<< UInt64.ofNat places).toUInt8 = UInt8.ofNat (value.toNat <<< places) := by
  refine UInt8.toNat_inj.mp ?_
  rw [UInt64.toNat_toUInt8, toNat_shiftUp value h, UInt8.toNat_ofNat']
  exact Nat.mod_mod_of_dvd _ (by decide)

theorem toUInt8_shiftDown (value : UInt64) {places : ℕ} (h : places < 64) :
    (value >>> UInt64.ofNat places).toUInt8 = UInt8.ofNat (value.toNat >>> places) := by
  refine UInt8.toNat_inj.mp ?_
  rw [UInt64.toNat_toUInt8, toNat_shiftDown value h, UInt8.toNat_ofNat']

/-- The changes of the bytes of a field, one after another. -/
def updates (change : Fragment → UInt8 → UInt8) (gs : List Fragment) : BufferRun Unit :=
  gs.foldlM (fun _ g => update g.index (change g)) ()

theorem updates_nil (change : Fragment → UInt8 → UInt8) : updates change [] = pure () := rfl

theorem updates_cons (change : Fragment → UInt8 → UInt8) (g : Fragment) (gs : List Fragment) :
    updates change (g :: gs) = (update g.index (change g) >>= fun _ => updates change gs) := rfl

theorem updates_singleton (change : Fragment → UInt8 → UInt8) (g : Fragment) :
    updates change [g] = update g.index (change g) := by
  rw [updates_cons, updates_nil]
  exact bind_pure _

/-- What writing does to the byte of a fragment. -/
def writeChange (value : UInt64) (assigns : Bool) (g : Fragment) (old : UInt8) : UInt8 :=
  if assigns then g.piece value else old ||| g.piece value

/-- **From a boundary of bytes on**, the fragments of whole bytes are assigned, and one of fewer
bits is merged. -/
theorem writeRest_eq (value : UInt64) (index : ℕ) {remaining : ℕ} (h : remaining ≤ 64) :
    writeRest value index remaining =
      updates (fun g => writeChange value (g.width == 8) g)
        (fragmentsFrom (8 * index) remaining) := by
  have hindex : ∀ index, 8 * index / 8 = index := fun index => by omega
  have hbit : ∀ index, 8 * index % 8 = 0 := fun index => by omega
  induction remaining using Nat.strongRecOn generalizing index with
  | ind remaining ih =>
    rw [writeRest]
    by_cases hfull : 8 ≤ remaining
    · have hplaces : remaining - 8 < 64 := by omega
      have hnext : 8 * index + 8 = 8 * (index + 1) := by omega
      rw [if_pos hfull, fragmentsFrom_of_ne_zero _ (by omega), updates_cons, hindex, hbit,
        Nat.sub_zero, Nat.min_eq_right hfull, hnext, ← ih _ (by omega) (index + 1) (by omega),
        shiftDown_eq value hplaces, pure_bind, toUInt8_shiftDown value hplaces]
      rfl
    by_cases hsome : 0 < remaining
    · have hshort : remaining ≤ 8 := by omega
      rw [if_neg hfull, if_pos hsome, fragmentsFrom_of_ne_zero _ (Nat.ne_of_gt hsome), hindex, hbit,
        Nat.sub_zero, Nat.min_eq_left hshort, Nat.sub_self, fragmentsFrom_zero, updates_singleton,
        minus_eq hshort, pure_bind, shiftUp_eq value (by omega), pure_bind,
        toUInt8_shiftUp value (by omega)]
      have hmerged : (remaining == 8) = false := beq_eq_false_iff_ne.mpr (by omega)
      simp only [hmerged]
      rfl
    · have hzero : remaining = 0 := by omega
      rw [if_neg hfull, if_neg hsome, hzero, fragmentsFrom_zero, updates_nil]

/-- A field that fits into a byte has one fragment. -/
theorem fragments_of_fits (h : f.width ≠ 0) (hfit : f.offset % 8 + f.width ≤ 8) :
    f.fragments = [⟨f.offset / 8, f.offset % 8, f.width, 0⟩] := by
  have htaken : min f.width (8 - f.offset % 8) = f.width := by omega
  rw [fragments, fragmentsFrom_of_ne_zero _ h, htaken, Nat.sub_self, fragmentsFrom_zero]

/-- The first fragment of a field that starts in the middle of a byte and goes on behind it. -/
theorem fragments_of_leading (hlong : 8 < f.offset % 8 + f.width) :
    f.fragments = ⟨f.offset / 8, f.offset % 8, 8 - f.offset % 8, f.width - (8 - f.offset % 8)⟩ ::
      fragmentsFrom (8 * (f.offset / 8 + 1)) (f.width - (8 - f.offset % 8)) := by
  have htaken : min f.width (8 - f.offset % 8) = 8 - f.offset % 8 := by omega
  have hnext : f.offset + (8 - f.offset % 8) = 8 * (f.offset / 8 + 1) := by omega
  rw [fragments, fragmentsFrom_of_ne_zero _ (by omega), htaken, hnext]

theorem writeByBytes_of_fits (value : UInt64) (hzero : f.width ≠ 0)
    (hfit : f.offset % 8 + f.width ≤ 8) : f.writeByBytes value =
      updates (fun g => writeChange value (f.assigns g) g) f.fragments := by
  have hfits : f.fitsByte = true := decide_eq_true hfit
  have hshift : 8 - (f.offset % 8 + f.width) = 8 - f.offset % 8 - f.width := by omega
  rw [writeByBytes, if_neg hzero, if_pos hfit, fragments_of_fits hzero hfit, updates_singleton,
    minus_eq hfit, pure_bind, shiftUp_eq value (by omega), pure_bind,
    toUInt8_shiftUp value (by omega), hshift]
  by_cases hbit : f.offset % 8 = 0
  · have hassigns : f.assigns ⟨f.offset / 8, f.offset % 8, f.width, 0⟩ = true := by
      simp [assigns, hfits, hbit]
    rw [if_pos hbit, hassigns]
    rfl
  · have hmerges : f.assigns ⟨f.offset / 8, f.offset % 8, f.width, 0⟩ = false := by
      have : f.width ≠ 8 := by omega
      simp [assigns, hfits, hbit, this]
    rw [if_neg hbit, hmerges]
    rfl

theorem writeByBytes_of_spans (value : UInt64) (h : f.width ≤ 64)
    (hspan : ¬ f.offset % 8 + f.width ≤ 8) : f.writeByBytes value =
      updates (fun g => writeChange value (f.assigns g) g) f.fragments := by
  have hspans : f.fitsByte = false := decide_eq_false hspan
  have hassigns : ∀ g, f.assigns g = (g.width == 8) := fun g => by
    rw [assigns, hspans, Bool.false_and, Bool.or_false]
  simp only [hassigns]
  rw [writeByBytes, if_neg (by omega), if_neg hspan]
  by_cases hbit : f.offset % 8 = 0
  · have hoffset : 8 * (f.offset / 8) = f.offset := by omega
    rw [if_pos hbit, writeRest_eq value _ h, hoffset]
    rfl
  · have hmerged : (8 - f.offset % 8 == 8) = false := beq_eq_false_iff_ne.mpr (by omega)
    rw [if_neg hbit, fragments_of_leading (by omega), updates_cons, minus_eq (by omega), pure_bind,
      minus_eq (by omega), pure_bind, shiftDown_eq value (by omega), pure_bind,
      toUInt8_shiftDown value (by omega), writeRest_eq value _ (by omega)]
    have hpiece : (⟨f.offset / 8, f.offset % 8, 8 - f.offset % 8,
        f.width - (8 - f.offset % 8)⟩ : Fragment).piece value =
          UInt8.ofNat (value.toNat >>> (f.width - (8 - f.offset % 8))) := by
      rw [Fragment.piece, Fragment.shift, Nat.sub_self, Nat.shiftLeft_zero]
    rw [hmerged, ← hpiece]
    rfl

/-- **Sequential writing** changes the byte of each fragment, and no shift is too wide. -/
theorem writeByBytes_eq (f : BitField) (value : UInt64) (h : f.width ≤ 64) :
    f.writeByBytes value =
      updates (fun g => writeChange value (f.assigns g) g) f.fragments := by
  by_cases hzero : f.width = 0
  · rw [writeByBytes, if_pos hzero, fragments, hzero, fragmentsFrom_zero, updates_nil]
  by_cases hfit : f.offset % 8 + f.width ≤ 8
  · exact writeByBytes_of_fits value hzero hfit
  · exact writeByBytes_of_spans value h hfit

/-! ### Writing in place -/

/-- Write the low bits of a value in place, one byte after another, and cut off those that have been
written. -/
def overwriteFrom (place remaining : ℕ) (value : UInt64) : BufferRun Unit :=
  if 0 < remaining then do
    let index := place / 8
    let bit := place % 8
    let taken := min remaining (8 - bit)
    let part := (← shiftDown value (remaining - taken)).toUInt8 &&& (← maxField taken).toUInt8
    let shift ← minus (← minus 8 bit) taken
    let mask ← shiftByteUp (← maxField taken).toUInt8 shift
    let part ← shiftByteUp part shift
    update index fun old => (old &&& ~~~mask) ||| part
    overwriteFrom (place + taken) (remaining - taken) (value &&& (← maxField (remaining - taken)))
  else pure ()
termination_by remaining
decreasing_by omega

/-- **Writing in place, byte by byte.** -/
def overwriteByBytes (f : BitField) (value : UInt64) : BufferRun Unit := do
  overwriteFrom f.offset f.width (value &&& (← maxField f.width))

/-- What writing in place does to the byte of a fragment. -/
def overwriteChange (value : UInt64) (g : Fragment) (old : UInt8) : UInt8 :=
  (old &&& ~~~g.mask) ||| (g.piece value &&& g.mask)

theorem toNat_shiftByteUp (byte : UInt8) {places : ℕ} (h : places < 8) :
    (byte <<< UInt8.ofNat places).toNat = byte.toNat <<< places % 2 ^ 8 := by
  have hplaces : (UInt8.ofNat places).toNat = places :=
    UInt8.toNat_ofNat_of_lt' (by rw [UInt8.size]; omega)
  rw [UInt8.toNat_shiftLeft, hplaces, Nat.mod_eq_of_lt h]

/-- The largest value of a fragment is that of a byte. -/
theorem toNat_toUInt8_maxFieldValue {width : ℕ} (h : width ≤ 8) :
    (maxFieldValue width).toUInt8.toNat = 2 ^ width - 1 := by
  have hpower : (2 : ℕ) ^ width ≤ 2 ^ 8 := Nat.pow_le_pow_right Nat.two_pos h
  have hpos := Nat.two_pow_pos width
  rw [UInt64.toNat_toUInt8, toNat_maxFieldValue (by omega), Nat.mod_eq_of_lt (by omega)]

section Part

variable {g : Fragment} (hwidth : g.width ≤ 8) (hshift : g.shift < 8)
include hwidth hshift

/-- The mask is the largest value of the fragment, shifted into place. -/
theorem shifted_maxFieldValue :
    (maxFieldValue g.width).toUInt8 <<< UInt8.ofNat g.shift = g.mask := by
  refine UInt8.toNat_inj.mp ?_
  rw [toNat_shiftByteUp _ hshift, toNat_toUInt8_maxFieldValue hwidth, Fragment.mask,
    UInt8.toNat_ofNat']

/-- The bits that a fragment takes of the low bits of a value are its piece, without the bits above
the field. -/
theorem shifted_part (value : UInt64) (hrest : g.rest + g.width ≤ 64) (hpos : 0 < g.width) :
    (((value &&& maxFieldValue (g.rest + g.width)) >>> UInt64.ofNat g.rest).toUInt8 &&&
        (maxFieldValue g.width).toUInt8) <<< UInt8.ofNat g.shift = g.piece value &&& g.mask := by
  refine UInt8.toNat_inj.mp (Nat.eq_of_testBit_eq fun j => ?_)
  rw [toNat_shiftByteUp _ hshift, UInt8.toNat_and, toNat_toUInt8_maxFieldValue hwidth,
    toUInt8_shiftDown _ (by omega), toNat_and_maxFieldValue hrest, UInt8.toNat_and, Fragment.piece,
    Fragment.mask]
  simp only [UInt8.toNat_ofNat', Nat.testBit_mod_two_pow, Nat.testBit_shiftLeft, Nat.testBit_and,
    Nat.testBit_shiftRight, Nat.testBit_two_pow_sub_one]
  grind

end Part

/-- Cutting off the bits that have been written leaves the low bits of the value. -/
theorem and_maxFieldValue_and {value : UInt64} {width rest : ℕ} (h : width ≤ 64)
    (hle : rest ≤ width) :
    value &&& maxFieldValue width &&& maxFieldValue rest = value &&& maxFieldValue rest := by
  refine UInt64.toNat_inj.mp ?_
  rw [toNat_and_maxFieldValue (Nat.le_trans hle h), toNat_and_maxFieldValue h,
    toNat_and_maxFieldValue (Nat.le_trans hle h), Nat.mod_mod_of_dvd _ (Nat.pow_dvd_pow 2 hle)]

/-- **Writing in place** changes the byte of each fragment, and no shift is too wide. -/
theorem overwriteFrom_eq (value : UInt64) (place : ℕ) {remaining : ℕ} (h : remaining ≤ 64) :
    overwriteFrom place remaining (value &&& maxFieldValue remaining) =
      updates (overwriteChange value) (fragmentsFrom place remaining) := by
  induction remaining using Nat.strongRecOn generalizing place with
  | ind remaining ih =>
    rw [overwriteFrom]
    by_cases hpos : 0 < remaining
    · rw [if_pos hpos, fragmentsFrom_of_ne_zero _ (Nat.ne_of_gt hpos), updates_cons]
      generalize htaken : min remaining (8 - place % 8) = taken
      have hrest : remaining - taken + taken = remaining := by omega
      have hpart := shifted_part (g := ⟨place / 8, place % 8, taken, remaining - taken⟩)
        (show taken ≤ 8 by omega) (show 8 - place % 8 - taken < 8 by omega) value
        (show remaining - taken + taken ≤ 64 by omega) (show 0 < taken by omega)
      have hmask := shifted_maxFieldValue (g := ⟨place / 8, place % 8, taken, remaining - taken⟩)
        (show taken ≤ 8 by omega) (show 8 - place % 8 - taken < 8 by omega)
      simp only [hrest, Fragment.shift] at hpart hmask
      simp only [htaken, maxField_eq, shiftDown_eq (value &&& maxFieldValue remaining)
          (show remaining - taken < 64 by omega), minus_eq (show place % 8 ≤ 8 by omega),
        minus_eq (show taken ≤ 8 - place % 8 by omega), pure_bind]
      rw [shiftByteUp_eq _ (by omega), pure_bind, shiftByteUp_eq _ (by omega), pure_bind, hpart,
        hmask, and_maxFieldValue_and h (Nat.sub_le _ _),
        ih (remaining - taken) (by omega) (place + taken) (by omega)]
      rfl
    · have hzero : remaining = 0 := by omega
      rw [if_neg hpos, hzero, fragmentsFrom_zero, updates_nil]

theorem overwriteByBytes_eq (f : BitField) (value : UInt64) (h : f.width ≤ 64) :
    f.overwriteByBytes value = updates (overwriteChange value) f.fragments := by
  rw [overwriteByBytes, maxField_eq, pure_bind, overwriteFrom_eq value _ h]
  rfl

/-! ### Reading -/

/-- Read on from a boundary of bytes: whole bytes as long as eight bits remain, and what is left of
the bits from the top of the next one. -/
def readRest (index remaining : ℕ) (value : UInt64) : BufferRun UInt64 :=
  if 8 ≤ remaining then do
    let shifted ← shiftUp value 8
    let byte ← load index
    readRest (index + 1) (remaining - 8) (shifted ||| byte.toUInt64)
  else if 0 < remaining then do
    let shifted ← shiftUp value remaining
    let byte ← load index
    let part ← shiftByteDown byte (← minus 8 remaining)
    return shifted ||| part.toUInt64
  else return value
termination_by remaining

/-- **Reading, byte by byte.** -/
def readByBytes (f : BitField) : BufferRun UInt64 :=
  let index := f.offset / 8
  let bit := f.offset % 8
  if f.width = 0 then pure 0
  else if bit + f.width ≤ 8 then do
    let shift ← minus 8 (bit + f.width)
    let part := (← shiftByteDown (← load index) shift).toUInt64
    if bit = 0 then return part
    else return part &&& (← maxField f.width)
  else if bit = 0 then readRest index f.width 0
  else do
    let leading ← minus 8 bit
    let part := (← load index).toUInt64 &&& (← maxField leading)
    let remaining ← minus f.width leading
    readRest (index + 1) remaining part

/-- One fragment more is read. -/
def readStep (value : UInt64) (g : Fragment) : BufferRun UInt64 := do
  return value <<< UInt64.ofNat g.width ||| UInt64.ofNat (g.extract (← load g.index))

theorem toNat_shiftByteDown (byte : UInt8) {places : ℕ} (h : places < 8) :
    (byte >>> UInt8.ofNat places).toNat = byte.toNat >>> places := by
  have hplaces : (UInt8.ofNat places).toNat = places :=
    UInt8.toNat_ofNat_of_lt' (by rw [UInt8.size]; omega)
  rw [UInt8.toNat_shiftRight, hplaces, Nat.mod_eq_of_lt h]

section Part

variable {g : Fragment} (byte : UInt8) (hwidth : g.width ≤ 8) (hshift : g.shift < 8)
include hwidth hshift

/-- What a mask leaves of a byte that is shifted down are the bits of the fragment. -/
theorem shiftByteDown_and :
    (byte >>> UInt8.ofNat g.shift).toUInt64 &&& maxFieldValue g.width =
      UInt64.ofNat (g.extract byte) := by
  have hlt : g.extract byte < 2 ^ 64 :=
    Nat.lt_of_lt_of_le (Nat.mod_lt _ (Nat.two_pow_pos _))
      (Nat.pow_le_pow_right Nat.two_pos (by omega))
  refine UInt64.toNat_inj.mp ?_
  rw [toNat_and_maxFieldValue (by omega), UInt8.toNat_toUInt64, toNat_shiftByteDown _ hshift,
    UInt64.toNat_ofNat', Nat.mod_eq_of_lt hlt, Fragment.extract]

/-- Nothing has to be masked if the fragment starts with the byte. -/
theorem shiftByteDown_of_lead (hlead : g.lead = 0) :
    (byte >>> UInt8.ofNat g.shift).toUInt64 = UInt64.ofNat (g.extract byte) := by
  rw [← shiftByteDown_and byte hwidth hshift]
  refine UInt64.toNat_inj.mp ?_
  have hbyte : byte.toNat < 2 ^ (g.width + g.shift) := by
    have hplaces : g.width + g.shift = 8 := by
      rw [Fragment.shift]
      omega
    exact hplaces ▸ byte.toNat_lt
  rw [toNat_and_maxFieldValue (by omega), UInt8.toNat_toUInt64, toNat_shiftByteDown _ hshift,
    Nat.mod_eq_of_lt]
  rw [Nat.shiftRight_eq_div_pow]
  exact Nat.div_lt_of_lt_mul (by rwa [← Nat.pow_add, Nat.add_comm])

end Part

theorem foldlM_readStep_singleton (value : UInt64) (g : Fragment) :
    [g].foldlM readStep value = readStep value g := by
  simp only [List.foldlM_cons, List.foldlM_nil, bind_pure]

/-- **From a boundary of bytes on**, the rest of a field is read fragment by fragment. -/
theorem readRest_eq (index : ℕ) {remaining : ℕ} (value : UInt64) (h : remaining ≤ 64) :
    readRest index remaining value =
      (fragmentsFrom (8 * index) remaining).foldlM readStep value := by
  have hindex : ∀ index, 8 * index / 8 = index := fun index => by omega
  have hbit : ∀ index, 8 * index % 8 = 0 := fun index => by omega
  induction remaining using Nat.strongRecOn generalizing index value with
  | ind remaining ih =>
    rw [readRest]
    by_cases hfull : 8 ≤ remaining
    · have hnext : 8 * index + 8 = 8 * (index + 1) := by omega
      rw [if_pos hfull, fragmentsFrom_of_ne_zero _ (by omega), List.foldlM_cons, hindex, hbit,
        Nat.sub_zero, Nat.min_eq_right hfull, hnext, readStep, bind_assoc,
        shiftUp_eq value (by omega), pure_bind]
      congr 1
      funext byte
      have hbyte := shiftByteDown_of_lead (g := ⟨index, 0, 8, remaining - 8⟩) byte (by simp)
        (by simp [Fragment.shift]) rfl
      rw [pure_bind, ih _ (by omega) (index + 1) _ (by omega), ← hbyte]
      simp [Fragment.shift]
    by_cases hsome : 0 < remaining
    · have hshort : remaining ≤ 8 := by omega
      rw [if_neg hfull, if_pos hsome, fragmentsFrom_of_ne_zero _ (Nat.ne_of_gt hsome), hindex, hbit,
        Nat.sub_zero, Nat.min_eq_left hshort, Nat.sub_self, fragmentsFrom_zero,
        foldlM_readStep_singleton, minus_eq hshort, readStep, shiftUp_eq value (by omega),
        pure_bind]
      congr 1
      funext byte
      have hbyte := shiftByteDown_of_lead (g := ⟨index, 0, remaining, 0⟩) byte hshort
        (show 8 - 0 - remaining < 8 by omega) rfl
      rw [pure_bind, shiftByteDown_eq _ (by omega), pure_bind, ← hbyte]
      rfl
    · have hzero : remaining = 0 := by omega
      rw [if_neg hfull, if_neg hsome, hzero, fragmentsFrom_zero]
      rfl

theorem readStep_zero (g : Fragment) :
    readStep 0 g = do return UInt64.ofNat (g.extract (← load g.index)) := by
  simp only [readStep, UInt64.zero_shiftLeft, UInt64.zero_or]

/-- **Reading, byte by byte,** reads one fragment after another, and no shift is too wide. -/
theorem readByBytes_eq (f : BitField) (h : f.width ≤ 64) :
    f.readByBytes = f.fragments.foldlM readStep 0 := by
  unfold readByBytes
  by_cases hzero : f.width = 0
  · rw [if_pos hzero, fragments, hzero, fragmentsFrom_zero]
    rfl
  rw [if_neg hzero]
  by_cases hfit : f.offset % 8 + f.width ≤ 8
  · rw [if_pos hfit, fragments_of_fits hzero hfit, foldlM_readStep_singleton, readStep_zero,
      minus_eq hfit, pure_bind]
    congr 1
    funext byte
    have hshift : 8 - (f.offset % 8 + f.width) = 8 - f.offset % 8 - f.width := by omega
    rw [shiftByteDown_eq _ (by omega), pure_bind, hshift]
    by_cases hbit : f.offset % 8 = 0
    · rw [if_pos hbit]
      exact congrArg pure (shiftByteDown_of_lead (g := ⟨f.offset / 8, f.offset % 8, f.width, 0⟩)
        byte (show f.width ≤ 8 by omega) (show 8 - f.offset % 8 - f.width < 8 by omega) hbit)
    · rw [if_neg hbit, maxField_eq, pure_bind]
      exact congrArg pure (shiftByteDown_and (g := ⟨f.offset / 8, f.offset % 8, f.width, 0⟩) byte
        (show f.width ≤ 8 by omega) (show 8 - f.offset % 8 - f.width < 8 by omega))
  rw [if_neg hfit]
  by_cases hbit : f.offset % 8 = 0
  · have hoffset : 8 * (f.offset / 8) = f.offset := by omega
    rw [if_pos hbit, readRest_eq _ _ h, hoffset]
    rfl
  · rw [if_neg hbit, fragments_of_leading (by omega), List.foldlM_cons, readStep_zero, bind_assoc,
      minus_eq (by omega), pure_bind]
    congr 1
    funext byte
    have hbyte := shiftByteDown_and
      (g := ⟨f.offset / 8, f.offset % 8, 8 - f.offset % 8, f.width - (8 - f.offset % 8)⟩) byte
      (show 8 - f.offset % 8 ≤ 8 by omega)
      (show 8 - f.offset % 8 - (8 - f.offset % 8) < 8 by omega)
    rw [maxField_eq, pure_bind, minus_eq (by omega), pure_bind, pure_bind,
      readRest_eq _ _ (by omega), ← hbyte]
    simp [Fragment.shift]

/-! ### What the runs result in -/

theorem accesses_update (index : ℕ) (change : UInt8 → UInt8) :
    (update index change).Accesses index :=
  (accesses_access index change).map fun _ => ()

theorem accesses_readStep (value : UInt64) (g : Fragment) : (readStep value g).Accesses g.index :=
  (accesses_access g.index id).map fun byte =>
    value <<< UInt64.ofNat g.width ||| UInt64.ofNat (g.extract byte)

/-- The buffer after a run, unless it fails. -/
def bytes? (outcome : Except AccessFault α × AccessState) : Option (List UInt8) :=
  outcome.1.toOption.map fun _ => outcome.2.bytes

/-- **Changing the byte of each fragment** in a run is changing it in the buffer. -/
theorem bytes?_updates (change : Fragment → UInt8 → UInt8) (gs : List Fragment)
    (s : AccessState) :
    bytes? ((updates change gs).run.run s) = changeFragments? change gs s.bytes := by
  induction gs generalizing s with
  | nil => rfl
  | cons g gs ih =>
    rw [updates_cons, run_bind, changeFragments?, List.foldlM_cons]
    by_cases hlt : g.index < s.bytes.length
    · rw [update, run_bind, run_access_of_lt hlt, changeByte?_of_lt hlt]
      exact ih ⟨s.bytes.modify g.index (change g), s.indices ++ [g.index]⟩
    · rw [(accesses_update g.index (change g)).run_of_le s (Nat.le_of_not_lt hlt), changeByte?,
        if_neg hlt]
      rfl

/-- **Reading fragment after fragment** in a run spells the number that the fragments hold, and
changes no byte. -/
theorem run_readSteps {gs : List Fragment} (hgs : ∀ g ∈ gs, g.width < 64) (start : ℕ)
    (s : AccessState) :
    ((gs.foldlM readStep (UInt64.ofNat start)).run.run s).1.toOption =
        (gs.foldlM (m := Option)
          (fun value g => s.bytes[g.index]?.map fun byte => value <<< g.width ||| g.extract byte)
          start).map UInt64.ofNat ∧
      ((gs.foldlM readStep (UInt64.ofNat start)).run.run s).2.bytes = s.bytes := by
  induction gs generalizing start s with
  | nil => exact ⟨rfl, rfl⟩
  | cons g gs ih =>
    obtain ⟨hg, hgs⟩ := List.forall_mem_cons.mp hgs
    rw [List.foldlM_cons, List.foldlM_cons, run_bind]
    by_cases hlt : g.index < s.bytes.length
    · have hget : s.bytes[g.index]? = some (s.bytes.getD g.index 0) := by
        rw [List.getD_eq_getElem?_getD, List.getElem?_eq_getElem hlt, Option.getD_some]
      have hstep : UInt64.ofNat start <<< UInt64.ofNat g.width |||
            UInt64.ofNat (g.extract (s.bytes.getD g.index 0)) =
          UInt64.ofNat (start <<< g.width ||| g.extract (s.bytes.getD g.index 0)) := by
        refine UInt64.toNat_inj.mp ?_
        rw [UInt64.toNat_or, toNat_shiftUp _ hg, UInt64.toNat_ofNat', UInt64.toNat_ofNat',
          UInt64.toNat_ofNat', Nat.or_mod_two_pow, Nat.shiftLeft_eq, Nat.shiftLeft_eq,
          Nat.mod_mul_mod]
      rw [readStep, run_bind, load, run_access_of_lt hlt, hget, List.modify_id]
      simp only [hstep]
      exact ih hgs _ ⟨s.bytes, s.indices ++ [g.index]⟩
    · rw [(accesses_readStep _ g).run_of_le s (Nat.le_of_not_lt hlt),
        List.getElem?_eq_none (Nat.le_of_not_lt hlt)]
      exact ⟨rfl, rfl⟩

/-! ### The bounds of reading and writing -/

section Bounds

variable (f : BitField) (buffer : List UInt8) (hwidth : f.width ≤ 64)
include hwidth

/-- **Sequential writing, byte by byte,** is sequential writing, and stays in the field. -/
theorem staysIn_writeByBytes (value : UInt64) :
    f.StaysIn buffer.length ((f.writeByBytes value).run.run ⟨buffer, []⟩) ∧
      bytes? ((f.writeByBytes value).run.run ⟨buffer, []⟩) = f.write? buffer value := by
  rw [writeByBytes_eq f value hwidth, bytes?_updates]
  exact ⟨staysIn_fragments (fun _ g => accesses_update _ _) f () buffer, rfl⟩

/-- **Writing in place, byte by byte,** is writing in place, and stays in the field. -/
theorem staysIn_overwriteByBytes (value : UInt64) :
    f.StaysIn buffer.length ((f.overwriteByBytes value).run.run ⟨buffer, []⟩) ∧
      bytes? ((f.overwriteByBytes value).run.run ⟨buffer, []⟩) = f.overwrite? buffer value := by
  rw [overwriteByBytes_eq f value hwidth, bytes?_updates]
  exact ⟨staysIn_fragments (fun _ g => accesses_update _ _) f () buffer, rfl⟩

/-- **Reading, byte by byte,** is reading, stays in the field and changes no byte. -/
theorem staysIn_readByBytes :
    f.StaysIn buffer.length (f.readByBytes.run.run ⟨buffer, []⟩) ∧
      (f.readByBytes.run.run ⟨buffer, []⟩).1.toOption = f.read? buffer ∧
      (f.readByBytes.run.run ⟨buffer, []⟩).2.bytes = buffer := by
  rw [readByBytes_eq f hwidth]
  refine ⟨staysIn_fragments accesses_readStep f 0 buffer, run_readSteps (fun g hg => ?_) 0 _⟩
  obtain ⟨-, -, -, hbyte⟩ := fragment_bounds hg
  omega

end Bounds

end BitField

namespace BitCursor

/-- **Unpacking, byte by byte**, up to what goes wrong. -/
def unpackByBytes (c : BitCursor) (width : ℕ) : Except AccessFault (UInt64 × BitCursor) :=
  ((c.field width).readByBytes.run.run ⟨c.buffer, []⟩).1.map fun value =>
    (value, { c with offset := c.offset + width })

/-- **Unpacking fails** if more bits are wanted than are left, and only then. -/
theorem unpackByBytes_fails_iff (c : BitCursor) {width : ℕ} (hpos : 0 < width)
    (hwidth : width ≤ 64) :
    (∃ fault, c.unpackByBytes width = .error fault) ↔ c.bitsLeft < width := by
  have hstays := ((c.field width).staysIn_readByBytes c.buffer hwidth).1.fails_iff
  have herror : (∃ fault, c.unpackByBytes width = .error fault) ↔
      ∃ fault, ((c.field width).readByBytes.run.run ⟨c.buffer, []⟩).1 = .error fault := by
    rw [unpackByBytes]
    cases ((c.field width).readByBytes.run.run ⟨c.buffer, []⟩).1 <;> simp [Except.map]
  rw [herror, hstays, field, bitsLeft]
  simp only
  omega

/-- Unpacking, byte by byte, is unpacking. -/
theorem toOption_unpackByBytes (c : BitCursor) {width : ℕ} (hwidth : width ≤ 64) :
    (c.unpackByBytes width).toOption = c.unpack? width := by
  rw [unpack?, ← ((c.field width).staysIn_readByBytes c.buffer hwidth).2.1, unpackByBytes]
  cases ((c.field width).readByBytes.run.run ⟨c.buffer, []⟩).1 <;> rfl

end BitCursor

/-- **The accesses to a bit field are exact.** Writing, writing in place and reading byte by byte
fail on a field that is not in the buffer, and on no other; they get at the bytes that the field has
bits in, and at no other; and nothing else goes wrong in them, such as a shift by all places of a
word. What they result in is what the field says. Unpacking fails exactly if more bits are wanted
than are left, wherever the position is. -/
theorem BitField.byBytes_exact (f : BitField) (buffer : List UInt8) (value : UInt64)
    (hwidth : f.width ≤ 64) :
    (f.StaysIn buffer.length ((f.writeByBytes value).run.run ⟨buffer, []⟩) ∧
      bytes? ((f.writeByBytes value).run.run ⟨buffer, []⟩) = f.write? buffer value) ∧
    (f.StaysIn buffer.length ((f.overwriteByBytes value).run.run ⟨buffer, []⟩) ∧
      bytes? ((f.overwriteByBytes value).run.run ⟨buffer, []⟩) = f.overwrite? buffer value) ∧
    (f.StaysIn buffer.length (f.readByBytes.run.run ⟨buffer, []⟩) ∧
      (f.readByBytes.run.run ⟨buffer, []⟩).1.toOption = f.read? buffer ∧
      (f.readByBytes.run.run ⟨buffer, []⟩).2.bytes = buffer) ∧
    ((BitCursor.mk buffer f.offset).unpackByBytes f.width).toOption =
      (BitCursor.mk buffer f.offset).unpack? f.width ∧
    (0 < f.width →
      ((∃ fault, (BitCursor.mk buffer f.offset).unpackByBytes f.width = .error fault) ↔
        (BitCursor.mk buffer f.offset).bitsLeft < f.width)) :=
  ⟨f.staysIn_writeByBytes buffer hwidth value, f.staysIn_overwriteByBytes buffer hwidth value,
    f.staysIn_readByBytes buffer hwidth, BitCursor.toOption_unpackByBytes _ hwidth,
    fun hpos => BitCursor.unpackByBytes_fails_iff _ hpos hwidth⟩

/-- Twelve bits from the fourth bit on are in two bytes, and are read there up to the last bit. In
one byte they are not: the second one is missed. Unpacking fails there, and far behind the end. -/
theorem BitField.byBytes_exact_twelve_bits :
    12 ≤ 64 ∧
      (¬∃ fault, ((⟨4, 12⟩ : BitField).readByBytes.run.run ⟨[0xAB, 0xCD], []⟩).1 = .error fault) ∧
      (∃ fault, (((⟨4, 12⟩ : BitField).writeByBytes 0xABC).run.run ⟨[0xAB], []⟩).1 = .error fault) ∧
      (∀ fault, (((⟨4, 12⟩ : BitField).writeByBytes 0xABC).run.run ⟨[0xAB], []⟩).1 = .error fault →
        fault = .outOfRange 1) ∧
      (∃ fault, (BitCursor.mk [0xAB] 4).unpackByBytes 12 = .error fault) ∧
      ∃ fault, (BitCursor.mk [0xAB] 1000).unpackByBytes 1 = .error fault := by
  have htwo := byBytes_exact ⟨4, 12⟩ [0xAB, 0xCD] 0 (by decide)
  have hone := byBytes_exact ⟨4, 12⟩ [0xAB] 0xABC (by decide)
  have hbehind := byBytes_exact ⟨1000, 1⟩ [0xAB] 0 (by decide)
  refine ⟨by decide, ?_, ?_, ?_, ?_, ?_⟩
  · rw [htwo.2.2.1.1.fails_iff]
    decide
  · rw [hone.1.1.fails_iff]
    decide
  · exact hone.1.1.fault_eq
  · exact (hone.2.2.2.2 (by decide)).mpr (by decide)
  · exact (hbehind.2.2.2.2 (by decide)).mpr (by decide)

end WireCodec
