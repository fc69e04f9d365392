import Mathlib.Data.Nat.Notation
import WireCodec.Proofs.BitField.Bits

/-!
# Runs over a buffer, access by access

Reading or writing a bit field is a matter of a few bytes, found by an index that is counted up, and
of shifts by numbers of places computed from the bit at which the field starts. A
`WireCodec.BufferRun` is a computation with a buffer in which such things can go wrong: an access to
a byte that the buffer does not have, a shift by as many places as the word has, a difference below
zero. It also keeps the indices of all accesses it has made.

A run that makes one access for each fragment of a field, in the order of the fragments, keeps to
the field and to the buffer (`WireCodec.BitField.StaysIn`, `WireCodec.BitField.staysIn_fragments`).
That is shown by induction on the fragments, for a field that is in the buffer
(`WireCodec.BitField.run_fragments_of_fits`) and for one that is not
(`WireCodec.BitField.run_fragments_of_short`).
-/

namespace WireCodec

/-- **What goes wrong in a run over a buffer.** -/
inductive AccessFault
  /-- The buffer has no byte at the index. -/
  | outOfRange (index : ℕ)
  /-- A shift by as many places as the word has, or by more. -/
  | wideShift (places : ℕ)
  /-- A number less than the one that is taken away from it. -/
  | belowZero (number taken : ℕ)
deriving DecidableEq, Repr

/-- **A buffer in a run**, with the indices of all accesses to it so far, in their order. -/
structure AccessState where
  /-- The bytes. -/
  bytes : List UInt8
  /-- The indices, that of an access that fails too. -/
  indices : List ℕ
deriving DecidableEq, Repr

/-- A run over a buffer, which may fail on the way. -/
abbrev BufferRun (α : Type) : Type :=
  ExceptT AccessFault (StateM AccessState) α

namespace BufferRun

variable {α β : Type} {s : AccessState} {index number taken places width : ℕ}

/-! ### Words -/

/-- A difference of numbers without a sign. -/
def minus (number taken : ℕ) : BufferRun ℕ :=
  if taken ≤ number then pure (number - taken) else throw (.belowZero number taken)

/-- A word shifted up by fewer places than it has. -/
def shiftUp (word : UInt64) (places : ℕ) : BufferRun UInt64 :=
  if places < 64 then pure (word <<< UInt64.ofNat places) else throw (.wideShift places)

/-- A word shifted down by fewer places than it has. -/
def shiftDown (word : UInt64) (places : ℕ) : BufferRun UInt64 :=
  if places < 64 then pure (word >>> UInt64.ofNat places) else throw (.wideShift places)

/-- A byte shifted up by fewer places than it has. -/
def shiftByteUp (byte : UInt8) (places : ℕ) : BufferRun UInt8 :=
  if places < 8 then pure (byte <<< UInt8.ofNat places) else throw (.wideShift places)

/-- A byte shifted down by fewer places than it has. -/
def shiftByteDown (byte : UInt8) (places : ℕ) : BufferRun UInt8 :=
  if places < 8 then pure (byte >>> UInt8.ofNat places) else throw (.wideShift places)

/-- The largest value of a field, by a shift unless the field is a whole word. -/
def maxField (width : ℕ) : BufferRun UInt64 :=
  if 64 ≤ width then pure 0xFFFFFFFFFFFFFFFF
  else do return (← shiftUp 1 width) - 1

theorem minus_eq (h : taken ≤ number) : minus number taken = pure (number - taken) :=
  if_pos h

theorem shiftUp_eq (word : UInt64) (h : places < 64) :
    shiftUp word places = pure (word <<< UInt64.ofNat places) :=
  if_pos h

theorem shiftDown_eq (word : UInt64) (h : places < 64) :
    shiftDown word places = pure (word >>> UInt64.ofNat places) :=
  if_pos h

theorem shiftByteUp_eq (byte : UInt8) (h : places < 8) :
    shiftByteUp byte places = pure (byte <<< UInt8.ofNat places) :=
  if_pos h

theorem shiftByteDown_eq (byte : UInt8) (h : places < 8) :
    shiftByteDown byte places = pure (byte >>> UInt8.ofNat places) :=
  if_pos h

theorem toNat_shiftUp (word : UInt64) (h : places < 64) :
    (word <<< UInt64.ofNat places).toNat = word.toNat <<< places % 2 ^ 64 := by
  rw [UInt64.toNat_shiftLeft, UInt64.toNat_ofNat_of_lt' (by simp [UInt64.size]; omega),
    Nat.mod_eq_of_lt h]

theorem toNat_shiftDown (word : UInt64) (h : places < 64) :
    (word >>> UInt64.ofNat places).toNat = word.toNat >>> places := by
  rw [UInt64.toNat_shiftRight, UInt64.toNat_ofNat_of_lt' (by simp [UInt64.size]; omega),
    Nat.mod_eq_of_lt h]

theorem maxField_eq (width : ℕ) : maxField width = pure (maxFieldValue width) := by
  unfold maxField maxFieldValue
  by_cases h : 64 ≤ width
  · rw [if_pos h, if_pos h]
  · have hpower : (2 : ℕ) ^ width < 2 ^ 64 :=
      Nat.pow_lt_pow_right (by decide) (Nat.lt_of_not_le h)
    have hpos := Nat.two_pow_pos width
    have hresult : (1 : UInt64) <<< UInt64.ofNat width - 1 = UInt64.ofNat (2 ^ width - 1) := by
      refine UInt64.toNat_inj.mp ?_
      have hshift := toNat_shiftUp 1 (Nat.lt_of_not_le h)
      rw [UInt64.toNat_one, Nat.shiftLeft_eq, Nat.one_mul, Nat.mod_eq_of_lt hpower] at hshift
      rw [UInt64.toNat_sub_of_le, hshift, UInt64.toNat_one,
        UInt64.toNat_ofNat_of_lt' (by simp [UInt64.size]; omega)]
      rw [UInt64.le_iff_toNat_le, hshift]
      exact hpos
    rw [if_neg h, if_neg h, shiftUp_eq 1 (Nat.lt_of_not_le h), pure_bind, hresult]

/-! ### Accesses -/

/-- **An access** to the byte at an index, which is changed. The byte that was there is the
result. -/
def access (index : ℕ) (change : UInt8 → UInt8) : BufferRun UInt8 :=
  ExceptT.mk fun s =>
    match s.bytes[index]? with
    | none => (.error (.outOfRange index), ⟨s.bytes, s.indices ++ [index]⟩)
    | some byte => (.ok byte, ⟨s.bytes.modify index change, s.indices ++ [index]⟩)

/-- Look at a byte. -/
def load (index : ℕ) : BufferRun UInt8 :=
  access index id

/-- Change a byte. -/
def update (index : ℕ) (change : UInt8 → UInt8) : BufferRun Unit := do
  let _ ← access index change

theorem run_bind (run : BufferRun α) (next : α → BufferRun β) (s : AccessState) :
    (run >>= next).run.run s =
      match run.run.run s with
      | (.ok a, s') => (next a).run.run s'
      | (.error e, s') => (.error e, s') := by
  change (match run.run.run s with
    | (a, s') => (ExceptT.bindCont next a).run s') = _
  rcases run.run.run s with ⟨_ | _, s'⟩ <;> rfl

theorem run_access_of_lt (h : index < s.bytes.length) (change : UInt8 → UInt8) :
    (access index change).run.run s =
      (.ok (s.bytes.getD index 0), ⟨s.bytes.modify index change, s.indices ++ [index]⟩) := by
  have hget : s.bytes[index]? = some (s.bytes.getD index 0) := by
    rw [List.getD_eq_getElem?_getD, List.getElem?_eq_getElem h, Option.getD_some]
  change (match s.bytes[index]? with | none => _ | some byte => _) = _
  rw [hget]

theorem run_access_of_le (h : s.bytes.length ≤ index) (change : UInt8 → UInt8) :
    (access index change).run.run s =
      (.error (.outOfRange index), ⟨s.bytes, s.indices ++ [index]⟩) := by
  change (match s.bytes[index]? with | none => _ | some byte => _) = _
  rw [List.getElem?_eq_none h]

/-- **A run makes one access**, to the byte at an index. It fails where the buffer has no such byte,
and only there. -/
structure Accesses (run : BufferRun α) (index : ℕ) : Prop where
  /-- The byte is there. -/
  run_of_lt : ∀ s : AccessState, index < s.bytes.length →
    ∃ a bytes, run.run.run s = (.ok a, ⟨bytes, s.indices ++ [index]⟩) ∧
      bytes.length = s.bytes.length
  /-- The byte is not there. -/
  run_of_le : ∀ s : AccessState, s.bytes.length ≤ index →
    run.run.run s = (.error (.outOfRange index), ⟨s.bytes, s.indices ++ [index]⟩)

theorem accesses_access (index : ℕ) (change : UInt8 → UInt8) :
    Accesses (access index change) index where
  run_of_lt _ h := ⟨_, _, run_access_of_lt h change, List.length_modify ..⟩
  run_of_le _ h := run_access_of_le h change

/-- What is computed of the byte makes no access. -/
theorem Accesses.map {run : BufferRun α} (h : run.Accesses index) (f : α → β) :
    Accesses (do return f (← run)) index where
  run_of_lt s hlt := by
    obtain ⟨a, bytes, hrun, hlength⟩ := h.run_of_lt s hlt
    refine ⟨f a, bytes, ?_, hlength⟩
    rw [run_bind, hrun]
    rfl
  run_of_le s hle := by
    rw [run_bind, h.run_of_le s hle]

end BufferRun

namespace BitField

open BufferRun

variable {f : BitField} {α β : Type}

/-! ### The bytes of a field -/

/-- How many bytes a field has bits in. -/
def byteCount (f : BitField) : ℕ :=
  if f.width = 0 then 0 else (f.offset + f.width + 7) / 8 - f.offset / 8

/-- **The indices of the bytes that a field has bits in**, from the first to the last. -/
def byteIndices (f : BitField) : List ℕ :=
  List.range' (f.offset / 8) f.byteCount

theorem byteIndices_of_width_eq_zero (h : f.width = 0) : f.byteIndices = [] := by
  rw [byteIndices, byteCount, if_pos h, List.range'_zero]

/-- The byte of the first fragment, and those of the field that is left behind it. -/
theorem byteIndices_eq_cons (h : f.width ≠ 0) :
    f.byteIndices = f.offset / 8 ::
      (⟨f.offset + min f.width (8 - f.offset % 8),
        f.width - min f.width (8 - f.offset % 8)⟩ : BitField).byteIndices := by
  simp only [byteIndices, byteCount]
  rw [if_neg h]
  by_cases hrest : f.width - min f.width (8 - f.offset % 8) = 0
  · have hone : (f.offset + f.width + 7) / 8 - f.offset / 8 = 1 := by omega
    rw [if_pos hrest, hone, List.range'_one, List.range'_zero]
  · have hnext : (f.offset + min f.width (8 - f.offset % 8)) / 8 = f.offset / 8 + 1 := by omega
    have hend : f.offset + min f.width (8 - f.offset % 8) +
        (f.width - min f.width (8 - f.offset % 8)) = f.offset + f.width := by omega
    have hcount : (f.offset + f.width + 7) / 8 - f.offset / 8 =
        (f.offset + f.width + 7) / 8 - (f.offset / 8 + 1) + 1 := by omega
    rw [if_neg hrest, hnext, hend, hcount, List.range'_succ]

theorem range'_isPrefix {start m n : ℕ} (h : m ≤ n) :
    List.range' start m <+: List.range' start n :=
  ⟨List.range' (start + m) (n - m), by rw [List.range'_append_1, Nat.add_sub_cancel' h]⟩

theorem mem_byteIndices {index : ℕ} (h : index ∈ f.byteIndices) :
    f.offset / 8 ≤ index ∧ index < (f.offset + f.width + 7) / 8 := by
  rw [byteIndices, List.mem_range'_1, byteCount] at h
  split at h <;> omega

/-- **What a run over a field does to a buffer**: it fails exactly if the field is not in the
buffer, and then because of the first byte of it that is missing. It makes one access to each byte
of the field, from the first to the last or to the missing one. -/
structure StaysIn (f : BitField) (length : ℕ) (outcome : Except AccessFault α × AccessState) :
    Prop where
  /-- It fails on a field that is not in the buffer, and on no other. -/
  fails_iff : (∃ fault, outcome.1 = .error fault) ↔ 0 < f.width ∧ 8 * length < f.offset + f.width
  /-- Nothing but an access goes wrong. -/
  fault_eq : ∀ fault, outcome.1 = .error fault →
    fault = .outOfRange (max (f.offset / 8) length)
  /-- All accesses are to bytes of the field. -/
  mem_indices : ∀ index ∈ outcome.2.indices,
    f.offset / 8 ≤ index ∧ index < (f.offset + f.width + 7) / 8
  /-- They go through the field byte by byte. -/
  isPrefix : outcome.2.indices <+: f.byteIndices
  /-- They go through all of it. -/
  indices_eq : ∀ a, outcome.1 = .ok a → outcome.2.indices = f.byteIndices

section Fragments

variable {step : β → Fragment → BufferRun β} (hstep : ∀ b g, (step b g).Accesses g.index)
include hstep

/-- **A run over the fragments of a field that is in the buffer** goes through. -/
theorem run_fragments_of_fits (f : BitField) (b : β) (s : AccessState)
    (h : f.width ≠ 0 → f.offset + f.width ≤ 8 * s.bytes.length) :
    ∃ b' bytes, (f.fragments.foldlM step b).run.run s =
      (.ok b', ⟨bytes, s.indices ++ f.byteIndices⟩) := by
  induction f using fragments_induction generalizing b s with
  | empty offset =>
    refine ⟨b, s.bytes, ?_⟩
    rw [byteIndices_of_width_eq_zero rfl, List.append_nil]
    simp [fragments]
    rfl
  | first f hw ih =>
    have hfit := h hw
    obtain ⟨b', bytes, hfirst, hlength⟩ :=
      (hstep b (f.fragmentIn (f.offset / 8))).run_of_lt s
        (show f.offset / 8 < s.bytes.length by omega)
    obtain ⟨b'', bytes', hrest⟩ := ih b' ⟨bytes, s.indices ++ [f.offset / 8]⟩
      (fun _ => by simp only [hlength]; omega)
    refine ⟨b'', bytes', ?_⟩
    rw [fragments_eq_cons hw, List.foldlM_cons, run_bind, hfirst]
    rw [byteIndices_eq_cons hw]
    simp only [List.append_assoc, List.singleton_append] at hrest
    exact hrest

/-- **A run over the fragments of a field that is not in the buffer** fails at the first byte that
is missing. -/
theorem run_fragments_of_short (f : BitField) (b : β) (s : AccessState) (hw : f.width ≠ 0)
    (h : 8 * s.bytes.length < f.offset + f.width) :
    ∃ bytes, (f.fragments.foldlM step b).run.run s =
      (.error (.outOfRange (max (f.offset / 8) s.bytes.length)),
        ⟨bytes, s.indices ++ List.range' (f.offset / 8)
          (max (f.offset / 8) s.bytes.length + 1 - f.offset / 8)⟩) := by
  induction f using fragments_induction generalizing b s with
  | empty offset => exact absurd rfl hw
  | first f _ ih =>
    rw [fragments_eq_cons hw, List.foldlM_cons, run_bind]
    by_cases hfirst : f.offset / 8 < s.bytes.length
    · -- The first byte is there, so that the field goes on behind it.
      obtain ⟨b', bytes, hrun, hlength⟩ :=
        (hstep b (f.fragmentIn (f.offset / 8))).run_of_lt s hfirst
      obtain ⟨bytes', hrest⟩ := ih b' ⟨bytes, s.indices ++ [f.offset / 8]⟩
        (by simp only; omega) (by simp only [hlength]; omega)
      have hnext : (f.offset + min f.width (8 - f.offset % 8)) / 8 = f.offset / 8 + 1 := by omega
      refine ⟨bytes', ?_⟩
      rw [hrun]
      simp only [hlength, hnext] at hrest
      have hmax : max (f.offset / 8 + 1) s.bytes.length = max (f.offset / 8) s.bytes.length := by
        omega
      have hcount : max (f.offset / 8) s.bytes.length + 1 - f.offset / 8 =
        max (f.offset / 8) s.bytes.length + 1 - (f.offset / 8 + 1) + 1 := by omega
      rw [hcount, List.range'_succ]
      simp only [hmax, List.append_assoc, List.singleton_append] at hrest
      exact hrest
    · have hmax : max (f.offset / 8) s.bytes.length = f.offset / 8 := by omega
      have hone : f.offset / 8 + 1 - f.offset / 8 = 1 := by omega
      refine ⟨s.bytes, ?_⟩
      rw [(hstep b (f.fragmentIn (f.offset / 8))).run_of_le s (Nat.le_of_not_lt hfirst), hmax, hone,
        List.range'_one]
      rfl

/-- **A run over the fragments of a field** stays in the field and in the buffer. -/
theorem staysIn_fragments (f : BitField) (b : β) (buffer : List UInt8) :
    f.StaysIn buffer.length ((f.fragments.foldlM step b).run.run ⟨buffer, []⟩) := by
  by_cases h : 0 < f.width ∧ 8 * buffer.length < f.offset + f.width
  · obtain ⟨hpos, hshort⟩ := h
    have hwidth : f.width ≠ 0 := Nat.pos_iff_ne_zero.mp hpos
    obtain ⟨bytes, hrun⟩ := run_fragments_of_short hstep f b ⟨buffer, []⟩ hwidth hshort
    rw [hrun]
    simp only [List.nil_append]
    have hstart : List.range' (f.offset / 8)
        (max (f.offset / 8) buffer.length + 1 - f.offset / 8) <+: f.byteIndices := by
      rw [byteIndices, byteCount, if_neg hwidth]
      exact range'_isPrefix (by omega)
    refine ⟨iff_of_true ⟨_, rfl⟩ ⟨hpos, hshort⟩, ?_, fun index hindex => ?_, hstart, ?_⟩
    · rintro fault ⟨⟩
      rfl
    · exact mem_byteIndices (hstart.subset hindex)
    · rintro a ⟨⟩
  · obtain ⟨b', bytes, hrun⟩ := run_fragments_of_fits hstep f b ⟨buffer, []⟩ (by simp only; omega)
    rw [hrun]
    simp only [List.nil_append]
    refine ⟨iff_of_false ?_ h, ?_, fun index hindex => mem_byteIndices hindex, List.prefix_rfl, ?_⟩
    · rintro ⟨fault, ⟨⟩⟩
    · rintro fault ⟨⟩
    · rintro a -
      rfl

end Fragments

end BitField

end WireCodec
