import WireCodec.BitField.Cursor
import WireCodec.Proofs.BitField.Bits

/-!
# Packing a sequence of fields and unpacking it again

A record is packed by a sequence of steps, each of which packs a value or aligns the position
(`WireCodec.BitCursor.packAll?`). Its layout, the same steps without the values, is all that
unpacking needs (`WireCodec.BitCursor.unpackAll?`).

Packing at the front of zeros keeps them in front of the position, so every step finds the zeros
that `WireCodec.BitField.exists_write?_of_zeros` asks for. What has been packed lies before the
position, where later steps change no bit (`WireCodec.BitCursor.exists_packAll?_of_zeros`); so
unpacking the layout from the same offset gives the values back
(`WireCodec.BitCursor.unpackAll?_packAll?`).
-/

namespace WireCodec

/-! ### Steps -/

/-- **A step of unpacking.** -/
inductive LayoutStep
  /-- Unpack a field of `width` bits. -/
  | field (width : Nat)
  /-- Align the position. -/
  | align
deriving DecidableEq, Repr

/-- **A step of packing.** -/
inductive PackStep
  /-- Pack a value, or the largest one that fits, into `width` bits. -/
  | field (width : Nat) (value : UInt64)
  /-- Align the position. -/
  | align
deriving DecidableEq, Repr

namespace PackStep

/-- The step without its value. -/
def layout : PackStep → LayoutStep
  | field width _ => .field width
  | align => .align

/-- The value that the step leaves in its field, if it has one. -/
def stored? : PackStep → Option UInt64
  | field width value => some (UInt64.ofNat (min value.toNat (2 ^ width - 1)))
  | align => none

/-- The field of the step, if it has one, is no wider than a word. -/
def FitsWord : PackStep → Prop
  | field width _ => width ≤ 64
  | align => True

instance (step : PackStep) : Decidable step.FitsWord :=
  match step with
  | field width _ => inferInstanceAs (Decidable (width ≤ 64))
  | align => inferInstanceAs (Decidable True)

end PackStep

/-- The offset behind a step. -/
def LayoutStep.advance (offset : Nat) : LayoutStep → Nat
  | field width => offset + width
  | align => (offset + 7) / 8 * 8

/-- The offset behind a layout. -/
def endOffset (offset : Nat) (layout : List LayoutStep) : Nat :=
  layout.foldl LayoutStep.advance offset

@[simp] theorem endOffset_nil (offset : Nat) : endOffset offset [] = offset := rfl

@[simp] theorem endOffset_cons (offset : Nat) (step : LayoutStep) (layout : List LayoutStep) :
    endOffset offset (step :: layout) = endOffset (step.advance offset) layout := rfl

theorem le_advance (offset : Nat) (step : LayoutStep) : offset ≤ step.advance offset := by
  cases step with
  | field width => exact Nat.le_add_right offset width
  | align =>
    rw [LayoutStep.advance]
    omega

theorem le_endOffset (offset : Nat) (layout : List LayoutStep) :
    offset ≤ endOffset offset layout := by
  induction layout generalizing offset with
  | nil => exact Nat.le_refl offset
  | cons step layout ih => exact Nat.le_trans (le_advance offset step) (ih _)

namespace BitCursor

/-! ### Runs -/

/-- One step of packing. -/
def packStep? (c : BitCursor) : PackStep → Option BitCursor
  | .field width value => c.packSaturating? width value
  | .align => some c.align

/-- **Pack a sequence of steps.** -/
def packAll? (c : BitCursor) (steps : List PackStep) : Option BitCursor :=
  steps.foldlM packStep? c

/-- **Unpack a layout**: the values of its fields, and the position behind them. -/
def unpackAll? (c : BitCursor) : List LayoutStep → Option (List UInt64 × BitCursor)
  | [] => some ([], c)
  | .field width :: layout => do
    let (value, c) ← c.unpack? width
    let (values, c) ← c.unpackAll? layout
    return (value :: values, c)
  | .align :: layout => c.align.unpackAll? layout

/-! ### Saturating values -/

/-- The value that is packed, as a number. -/
theorem toNat_min_maxFieldValue {width : Nat} (h : width ≤ 64) (value : UInt64) :
    (min value (maxFieldValue width)).toNat = min value.toNat (2 ^ width - 1) := by
  rw [← toNat_maxFieldValue h, Nat.min_def]
  change (if value ≤ maxFieldValue width then value else maxFieldValue width).toNat = _
  by_cases hle : value ≤ maxFieldValue width
  · rw [if_pos hle, if_pos (UInt64.le_iff_toNat_le.mp hle)]
  · rw [if_neg hle, if_neg fun hc => hle (UInt64.le_iff_toNat_le.mpr hc)]

/-! ### Packing at the front of zeros -/

/-- **All bits from the position on are zero.** -/
def ZerosAhead (c : BitCursor) : Prop :=
  ∀ i, c.offset ≤ i → bitAt c.buffer i = false

/-- A run of packing has extended `c` to `c'`: no bit before the position of `c` is changed. -/
structure Extends (c c' : BitCursor) : Prop where
  /-- The buffer keeps its length. -/
  length : c'.buffer.length = c.buffer.length
  /-- The bits before the position stay as they are. -/
  agrees : ∀ i, i < c.offset → bitAt c'.buffer i = bitAt c.buffer i

theorem Extends.refl (c : BitCursor) : c.Extends c :=
  ⟨rfl, fun _ _ => rfl⟩

theorem Extends.trans {a b c : BitCursor} (hab : a.Extends b) (hbc : b.Extends c)
    (hle : a.offset ≤ b.offset) : a.Extends c :=
  ⟨hbc.length.trans hab.length, fun i hi =>
    (hbc.agrees i (Nat.lt_of_lt_of_le hi hle)).trans (hab.agrees i hi)⟩

/-- A field that lies before the position keeps its bits. -/
theorem Extends.holds {c c' : BitCursor} (h : c.Extends c') {f : BitField} {value : Nat}
    (hf : f.offset + f.width ≤ c.offset) (hvalue : f.Holds c.buffer value) :
    f.Holds c'.buffer value := fun i hi hi' =>
  (h.agrees i (by omega)).trans (hvalue i hi hi')

/-- **One field packed at the front of zeros** holds its value, and zeros are in front of the
position again. -/
theorem exists_packSaturating?_of_zeros {c : BitCursor} {width : Nat} (value : UInt64)
    (hwidth : width ≤ 64) (hfit : c.offset + width ≤ 8 * c.buffer.length) (hzero : c.ZerosAhead) :
    ∃ c', c.packSaturating? width value = some c' ∧ c'.offset = c.offset + width ∧
      c.Extends c' ∧ c'.ZerosAhead ∧
      (c.field width).Holds c'.buffer (min value.toNat (2 ^ width - 1)) := by
  have hpos : 0 < 2 ^ width := Nat.two_pow_pos width
  have hvalue := toNat_min_maxFieldValue hwidth value
  have hlt : (min value (maxFieldValue width)).toNat < 2 ^ width := by omega
  obtain ⟨buffer, hwrite, hlength, hholds, hothers⟩ :=
    BitField.exists_write?_of_zeros (f := c.field width) hfit hlt hzero
  refine ⟨⟨buffer, c.offset + width⟩, ?_, rfl, ⟨hlength, fun i hi => hothers i (Or.inl hi)⟩,
    fun i hi => ?_, hvalue ▸ hholds⟩
  · rw [packSaturating?, pack?, hwrite, Option.map_some]
  · exact (hothers i (Or.inr hi)).trans (hzero i (Nat.le_trans (Nat.le_add_right _ _) hi))

/-- Aligning keeps the zeros in front of the position. -/
theorem zerosAhead_align {c : BitCursor} (h : c.ZerosAhead) : c.align.ZerosAhead := fun i hi =>
  h i (Nat.le_trans (le_advance c.offset .align) hi)

/-! ### Unpacking -/

/-- A field that holds a number is unpacked as that number. -/
theorem unpack?_of_holds {c : BitCursor} {width value : Nat}
    (hfit : c.offset + width ≤ 8 * c.buffer.length) (hvalue : value < 2 ^ width)
    (hholds : (c.field width).Holds c.buffer value) :
    c.unpack? width = some (UInt64.ofNat value, ⟨c.buffer, c.offset + width⟩) := by
  rw [unpack?, BitField.read?_eq_some hfit hvalue hholds, Option.map_some]

/-- **Packing at the front of zeros and unpacking**, from any position on: packing succeeds, it
extends the buffer, and unpacking the layout from the old position in the new buffer gives what was
stored and ends where packing has ended. -/
theorem exists_packAll?_of_zeros {c : BitCursor} {steps : List PackStep}
    (hwidth : ∀ step ∈ steps, step.FitsWord)
    (hfit : endOffset c.offset (steps.map PackStep.layout) ≤ 8 * c.buffer.length)
    (hzero : c.ZerosAhead) :
    ∃ c', c.packAll? steps = some c' ∧ c.Extends c' ∧
      c'.offset = endOffset c.offset (steps.map PackStep.layout) ∧
      unpackAll? ⟨c'.buffer, c.offset⟩ (steps.map PackStep.layout) =
        some (steps.filterMap PackStep.stored?, c') := by
  induction steps generalizing c with
  | nil => exact ⟨c, rfl, Extends.refl c, rfl, rfl⟩
  | cons step steps ih =>
    obtain ⟨hstep, hsteps⟩ := List.forall_mem_cons.mp hwidth
    rw [List.map_cons, endOffset_cons] at hfit ⊢
    cases step with
    | field width value =>
      have hend : c.offset + width ≤ 8 * c.buffer.length :=
        Nat.le_trans (le_endOffset (c.offset + width) _) hfit
      obtain ⟨c₁, hpack, hoffset, hext, hzero₁, hholds⟩ :=
        exists_packSaturating?_of_zeros value hstep hend hzero
      have hlayout : (PackStep.field width value).layout.advance c.offset = c₁.offset :=
        hoffset.symm
      rw [hlayout, ← hext.length] at hfit
      obtain ⟨c', hrest, hext', hoffset', hunpack⟩ := ih hsteps hfit hzero₁
      have hall := hext.trans hext' (by omega)
      refine ⟨c', ?_, hall, hlayout ▸ hoffset', ?_⟩
      · rw [packAll?, List.foldlM_cons, packStep?, hpack]
        exact hrest
      · -- The later steps leave the bits of the field as this one has written them.
        have hheld := hext'.holds (f := c.field width) (by rw [hoffset]; exact Nat.le_refl _) hholds
        have hread : unpack? ⟨c'.buffer, c.offset⟩ width =
            some (UInt64.ofNat (min value.toNat (2 ^ width - 1)), ⟨c'.buffer, c.offset + width⟩) :=
          unpack?_of_holds (by rw [hall.length]; exact hend)
            (by have := Nat.two_pow_pos width; omega) hheld
        rw [hoffset] at hunpack
        simp only [PackStep.layout, unpackAll?, hread, hunpack, Option.bind_eq_bind,
          Option.bind_some, Option.pure_def]
        rfl
    | align =>
      obtain ⟨c', hrest, hext', hoffset', hunpack⟩ := ih (c := c.align) hsteps hfit
        (zerosAhead_align hzero)
      have hext : c.Extends c.align := ⟨rfl, fun _ _ => rfl⟩
      exact ⟨c', hrest, hext.trans hext' (le_advance c.offset .align), hoffset', hunpack⟩

/-- **What a sequence of steps has packed, its layout unpacks.** Where all bits from the offset on
are zero and the buffer is long enough, packing succeeds, and unpacking the layout from the same
offset gives the least of each value and the largest value of its field, in order, and ends at the
same offset; every bit before the offset is as it was. -/
theorem unpackAll?_packAll? {buffer : List UInt8} {offset : Nat} {steps : List PackStep}
    (hwidth : ∀ step ∈ steps, step.FitsWord)
    (hfit : endOffset offset (steps.map PackStep.layout) ≤ 8 * buffer.length)
    (hzero : ∀ i, offset ≤ i → bitAt buffer i = false) :
    ∃ c, packAll? ⟨buffer, offset⟩ steps = some c ∧
      unpackAll? ⟨c.buffer, offset⟩ (steps.map PackStep.layout) =
        some (steps.filterMap PackStep.stored?, c) ∧
      c.buffer.length = buffer.length ∧ ∀ i, i < offset → bitAt c.buffer i = bitAt buffer i := by
  obtain ⟨c, hpack, hext, -, hunpack⟩ :=
    exists_packAll?_of_zeros (c := ⟨buffer, offset⟩) hwidth hfit hzero
  exact ⟨c, hpack, hunpack, hext.length, hext.agrees⟩

/-- Fields that share bytes with each other and with three bits before the offset, one of them with
too large a value and one without bits, and an aligned field behind them. -/
theorem unpackAll?_packAll?_five_steps :
    let buffer : List UInt8 := [0xA8, 0, 0, 0]
    let steps : List PackStep :=
      [.field 2 9, .field 12 0xABC, .field 0 5, .align, .field 8 0x7E]
    (∀ step ∈ steps, step.FitsWord) ∧
      endOffset 5 (steps.map PackStep.layout) ≤ 8 * buffer.length ∧
      (∀ i, 5 ≤ i → bitAt buffer i = false) ∧
      ∃ c, packAll? ⟨buffer, 5⟩ steps = some c ∧
        unpackAll? ⟨c.buffer, 5⟩ [.field 2, .field 12, .field 0, .align, .field 8] =
          some ([3, 0xABC, 0, 0x7E], c) ∧
        c.buffer.length = 4 ∧ ∀ i, i < 5 → bitAt c.buffer i = bitAt buffer i := by
  intro buffer steps
  have hwidth : ∀ step ∈ steps, step.FitsWord := by decide
  have hfit : endOffset 5 (steps.map PackStep.layout) ≤ 8 * buffer.length := by decide
  have hzero : ∀ i, 5 ≤ i → bitAt buffer i = false := by
    intro i hi
    rcases Nat.lt_or_ge i 32 with hlt | hge
    · have hbits : ∀ i < 32, 5 ≤ i → bitAt buffer i = false := by decide
      exact hbits i hlt hi
    · have hbyte : buffer.getD (i / 8) 0 = 0 :=
        by rw [List.getD_eq_getElem?_getD, List.getElem?_eq_none (show 4 ≤ i / 8 by omega)]; rfl
      rw [bitAt, hbyte]
      exact Nat.zero_testBit _
  have hstored : steps.filterMap PackStep.stored? = [3, 0xABC, 0, 0x7E] := by decide
  obtain ⟨c, hpack, hunpack, hrest⟩ := unpackAll?_packAll? hwidth hfit hzero
  exact ⟨hwidth, hfit, hzero, c, hpack, hstored ▸ hunpack, hrest⟩

end BitCursor

end WireCodec
