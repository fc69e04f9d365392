import WireCodec.Proofs.BitField.Bits

/-!
# Fields that have no bit in common

A record of bit fields is filled in by overwriting one field after another, or by writing them
sequentially from the front of a buffer of zeros. Where the fields have no bit in common, what the
buffer ends up with can be said without any order (`WireCodec.BitField.IsFilled`): every field holds
its value, and the bits of no field are as they were. Only one buffer is like that, so that

* the order in which the fields are overwritten does not matter, and
* writing them sequentially in increasing order gives the same buffer
  (`WireCodec.BitField.overwriteAll?_eq_writeAll?`).

Sequential writing merges into bytes that it does not cover, so it needs zeros in front of every
field. In increasing order they are there, as each field ends before the next one starts.
-/

namespace WireCodec.BitField

/-- **The fields have no bit in common.** -/
def IsDisjoint (f g : BitField) : Prop :=
  ∀ i, f.Covers i → ¬g.Covers i

/-- Only the bits of one of the fields have to be looked at. -/
theorem isDisjoint_iff {f g : BitField} :
    f.IsDisjoint g ↔ ∀ i < f.offset + f.width, f.Covers i → ¬g.Covers i :=
  ⟨fun h i _ => h i, fun h i hi => h i hi.2 hi⟩

instance (f g : BitField) : Decidable (f.IsDisjoint g) :=
  decidable_of_iff _ isDisjoint_iff.symm

/-- **A field with the value that is to stand in it**: from one bit to a word, and a value that
fits. -/
structure Entry where
  /-- The field. -/
  field : BitField
  /-- The value. -/
  value : UInt64
  /-- The field is not empty. -/
  width_pos : 0 < field.width
  /-- The field is no wider than a word. -/
  width_le : field.width ≤ 64
  /-- The value has no bits above the width of the field. -/
  value_lt : value.toNat < 2 ^ field.width

/-- Write all values in place, one after another. -/
def overwriteAll? (entries : List Entry) (buffer : List UInt8) : Option (List UInt8) :=
  entries.foldlM (fun buffer e => e.field.overwrite? buffer e.value) buffer

/-- Write all values sequentially, one after another. -/
def writeAll? (entries : List Entry) (buffer : List UInt8) : Option (List UInt8) :=
  entries.foldlM (fun buffer e => e.field.write? buffer e.value) buffer

/-- **A buffer in which the entries stand** and nothing else is changed. The order of the entries
does not matter. -/
structure IsFilled (entries : List Entry) (buffer buffer' : List UInt8) : Prop where
  /-- The buffer keeps its length. -/
  length : buffer'.length = buffer.length
  /-- Every field holds its value. -/
  holds : ∀ e ∈ entries, e.field.Holds buffer' e.value.toNat
  /-- The bits of no field stay as they are. -/
  others : ∀ i, (∀ e ∈ entries, ¬e.field.Covers i) → bitAt buffer' i = bitAt buffer i

section Filling

variable {entries order : List Entry} {buffer buffer' : List UInt8} {e : Entry}

/-- There is only one way to fill a buffer. -/
theorem IsFilled.unique {first second : List UInt8} (h : IsFilled entries buffer first)
    (h' : IsFilled entries buffer second) : first = second := by
  refine eq_of_bitAt_eq (h.length.trans h'.length.symm) fun i => ?_
  by_cases hcovers : ∃ e ∈ entries, e.field.Covers i
  · obtain ⟨e, he, hoffset, hend⟩ := hcovers
    rw [h.holds e he i hoffset hend, h'.holds e he i hoffset hend]
  · have hnone : ∀ e ∈ entries, ¬e.field.Covers i := fun e he hi => hcovers ⟨e, he, hi⟩
    rw [h.others i hnone, h'.others i hnone]

/-- Only the entries matter, and not their order. -/
theorem IsFilled.perm (h : IsFilled order buffer buffer') (hperm : order.Perm entries) :
    IsFilled entries buffer buffer' :=
  ⟨h.length, fun e he => h.holds e (hperm.mem_iff.mpr he), fun i hi =>
    h.others i fun e he => hi e (hperm.mem_iff.mp he)⟩

/-- **One more entry in front**: a buffer in which it stands alone, and behind it the others, none
of which touches its bits. -/
theorem IsFilled.cons {middle : List UInt8} (hlength : middle.length = buffer.length)
    (hholds : e.field.Holds middle e.value.toNat)
    (hothers : ∀ i, ¬e.field.Covers i → bitAt middle i = bitAt buffer i)
    (hdisjoint : ∀ e' ∈ entries, e.field.IsDisjoint e'.field)
    (h : IsFilled entries middle buffer') : IsFilled (e :: entries) buffer buffer' := by
  refine ⟨h.length.trans hlength, ?_, fun i hi => ?_⟩
  · rintro e' (_ | ⟨_, he'⟩)
    · intro i hoffset hend
      rw [h.others i fun e' he' => hdisjoint e' he' i ⟨hoffset, hend⟩, hholds i hoffset hend]
    · exact h.holds e' he'
  · obtain ⟨hi, hi'⟩ := List.forall_mem_cons.mp hi
    rw [h.others i hi', hothers i hi]

/-- **Overwriting disjoint fields fills the buffer.** -/
theorem exists_overwriteAll?_eq_some (hfit : ∀ e ∈ entries,
      e.field.offset + e.field.width ≤ 8 * buffer.length)
    (hdisjoint : entries.Pairwise fun e e' => e.field.IsDisjoint e'.field) :
    ∃ buffer', overwriteAll? entries buffer = some buffer' ∧ IsFilled entries buffer buffer' := by
  induction entries generalizing buffer with
  | nil => exact ⟨buffer, rfl, rfl, by simp, fun _ _ => rfl⟩
  | cons e entries ih =>
    obtain ⟨hdisjoint, hrest⟩ := List.pairwise_cons.mp hdisjoint
    obtain ⟨hfit, hfits⟩ := List.forall_mem_cons.mp hfit
    obtain ⟨middle, hwrite, hlength, hholds, hothers⟩ :=
      e.field.exists_overwrite?_eq_some buffer e.value hfit
    obtain ⟨buffer', hwrites, hfilled⟩ := ih (hlength ▸ hfits) hrest
    refine ⟨buffer', ?_, hfilled.cons hlength hholds hothers hdisjoint⟩
    rw [overwriteAll?, List.foldlM_cons, hwrite]
    exact hwrites

/-- **Sequential writing of disjoint fields in increasing order fills the buffer**, where zeros are
in front of it. -/
theorem exists_writeAll?_eq_some (hfit : ∀ e ∈ entries,
      e.field.offset + e.field.width ≤ 8 * buffer.length)
    (hdisjoint : entries.Pairwise fun e e' => e.field.IsDisjoint e'.field)
    (hsorted : entries.Pairwise fun e e' => e.field.offset ≤ e'.field.offset)
    (hzero : ∀ e ∈ entries, ∀ i, e.field.offset ≤ i → bitAt buffer i = false) :
    ∃ buffer', writeAll? entries buffer = some buffer' ∧ IsFilled entries buffer buffer' := by
  induction entries generalizing buffer with
  | nil => exact ⟨buffer, rfl, rfl, by simp, fun _ _ => rfl⟩
  | cons e entries ih =>
    obtain ⟨hdisjoint, hrest⟩ := List.pairwise_cons.mp hdisjoint
    obtain ⟨hle, hsorted⟩ := List.pairwise_cons.mp hsorted
    obtain ⟨hfit, hfits⟩ := List.forall_mem_cons.mp hfit
    obtain ⟨hzero, hzeros⟩ := List.forall_mem_cons.mp hzero
    obtain ⟨middle, hwrite, hlength, hholds, hothers⟩ :=
      exists_write?_of_zeros hfit e.value_lt hzero
    have hothers' : ∀ i, ¬e.field.Covers i → bitAt middle i = bitAt buffer i := fun i hi =>
      hothers i (by simp only [Covers] at hi; omega)
    -- The fields behind this one start behind its end, where the zeros have not been touched.
    have hahead : ∀ e' ∈ entries, ∀ i, e'.field.offset ≤ i → bitAt middle i = false := by
      intro e' he' i hi
      have hbehind : ¬e.field.Covers e'.field.offset := fun hcovers =>
        hdisjoint e' he' _ hcovers ⟨Nat.le_refl _, Nat.lt_add_of_pos_right e'.width_pos⟩
      have hstart := hle e' he'
      rw [hothers i (.inr (by simp only [Covers] at hbehind; omega)), hzeros e' he' i hi]
    obtain ⟨buffer', hwrites, hfilled⟩ := ih (hlength ▸ hfits) hrest hsorted hahead
    refine ⟨buffer', ?_, hfilled.cons hlength hholds hothers' hdisjoint⟩
    rw [writeAll?, List.foldlM_cons, hwrite]
    exact hwrites

/-- Every field of a filled buffer reads as its value. -/
theorem IsFilled.read? (h : IsFilled entries buffer buffer') (he : e ∈ entries)
    (hfit : e.field.offset + e.field.width ≤ 8 * buffer.length) :
    e.field.read? buffer' = some e.value := by
  rw [read?_eq_some (h.length.symm ▸ hfit) e.value_lt (h.holds e he), UInt64.ofNat_toNat]

end Filling

/-- **The order of disjoint fields does not matter**: overwriting them gives the same buffer in any
order, and so does writing them sequentially into zeros in increasing order; in this buffer every
field reads as its value, and the bits of no field are as they were. -/
theorem overwriteAll?_eq_writeAll? {entries : List Entry} {buffer : List UInt8}
    (hdisjoint : entries.Pairwise fun e e' => e.field.IsDisjoint e'.field)
    (hfit : ∀ e ∈ entries, e.field.offset + e.field.width ≤ 8 * buffer.length) :
    ∃ buffer', (∀ order, order.Perm entries → overwriteAll? order buffer = some buffer') ∧
      ((∀ byte ∈ buffer, byte = 0) → ∀ order, order.Perm entries →
        order.Pairwise (fun e e' => e.field.offset ≤ e'.field.offset) →
        writeAll? order buffer = some buffer') ∧
      (∀ e ∈ entries, e.field.read? buffer' = some e.value) ∧
      ∀ i, (∀ e ∈ entries, ¬e.field.Covers i) → bitAt buffer' i = bitAt buffer i := by
  have hfits : ∀ {order : List Entry}, order.Perm entries → ∀ e ∈ order,
      e.field.offset + e.field.width ≤ 8 * buffer.length := fun hperm e he =>
    hfit e (hperm.mem_iff.mp he)
  have hdisjoints : ∀ {order : List Entry}, order.Perm entries →
      order.Pairwise fun e e' => e.field.IsDisjoint e'.field := fun hperm =>
    hperm.symm.pairwise hdisjoint fun h i hi hi' => h i hi' hi
  obtain ⟨buffer', -, hfilled⟩ := exists_overwriteAll?_eq_some hfit hdisjoint
  refine ⟨buffer', fun order hperm => ?_, fun hzero order hperm hsorted => ?_,
    fun e he => hfilled.read? he (hfit e he), hfilled.others⟩
  · obtain ⟨second, hwrites, hfilled'⟩ :=
      exists_overwriteAll?_eq_some (hfits hperm) (hdisjoints hperm)
    rw [hwrites, (hfilled'.perm hperm).unique hfilled]
  · obtain ⟨second, hwrites, hfilled'⟩ := exists_writeAll?_eq_some (hfits hperm)
      (hdisjoints hperm) hsorted fun e _ i _ => bitAt_eq_false_of_zeros hzero i
    rw [hwrites, (hfilled'.perm hperm).unique hfilled]

/-- Three fields in three bytes, two of which share the first byte and two the second. -/
theorem overwriteAll?_eq_writeAll?_three_fields :
    let front : Entry := ⟨⟨0, 3⟩, 5, by decide, by decide, by decide⟩
    let middle : Entry := ⟨⟨3, 7⟩, 0x55, by decide, by decide, by decide⟩
    let back : Entry := ⟨⟨12, 12⟩, 0xABC, by decide, by decide, by decide⟩
    let buffer : List UInt8 := [0, 0, 0]
    [back, front, middle].Pairwise (fun e e' => e.field.IsDisjoint e'.field) ∧
      (∀ e ∈ [back, front, middle], e.field.offset + e.field.width ≤ 8 * buffer.length) ∧
      (∀ byte ∈ buffer, byte = 0) ∧
      [front, middle, back].Perm [back, front, middle] ∧
      [front, middle, back].Pairwise (fun e e' => e.field.offset ≤ e'.field.offset) ∧
      ∃ buffer', overwriteAll? [back, front, middle] buffer = some buffer' ∧
        writeAll? [front, middle, back] buffer = some buffer' ∧
        (⟨3, 7⟩ : BitField).read? buffer' = some 0x55 ∧
        bitAt buffer' 10 = false ∧ bitAt buffer' 11 = false := by
  intro front middle back buffer
  have hdisjoint : [back, front, middle].Pairwise fun e e' => e.field.IsDisjoint e'.field := by
    decide
  have hfit : ∀ e ∈ [back, front, middle],
      e.field.offset + e.field.width ≤ 8 * buffer.length := by decide
  have hzero : ∀ byte ∈ buffer, byte = 0 := by simp [buffer]
  have hperm : [front, middle, back].Perm [back, front, middle] :=
    show ([front, middle] ++ [back]).Perm ([back] ++ [front, middle]) from List.perm_append_comm
  have hsorted : [front, middle, back].Pairwise
      fun e e' => e.field.offset ≤ e'.field.offset := by decide
  obtain ⟨buffer', hover, hwrite, hread, hothers⟩ := overwriteAll?_eq_writeAll? hdisjoint hfit
  exact ⟨hdisjoint, hfit, hzero, hperm, hsorted, buffer', hover _ (List.Perm.refl _),
    hwrite hzero _ hperm hsorted, hread middle (by simp),
    (hothers 10 (by decide)).trans (by decide), (hothers 11 (by decide)).trans (by decide)⟩

/-- Out of order, a field that starts with its byte takes away what stands behind it there. -/
example : writeAll? [⟨⟨3, 5⟩, 7, by decide, by decide, by decide⟩,
    ⟨⟨0, 3⟩, 5, by decide, by decide, by decide⟩] [0] = some [0xA0] := by
  cbv

end WireCodec.BitField
