import WireCodec.Proofs.BitField.Bits
import WireCodec.Proofs.BitField.CMachine
import WireCodec.Proofs.BitField.CText

/-!
# The C text of a field does what the field does

Executing the C text that writes a field leaves the bytes that `WireCodec.BitField.write?` leaves,
and executing the C text that reads a field leaves the number that `WireCodec.BitField.read?` finds
(`WireCodec.BitField.runText?_write_and_read`). The variable is a `uint64_t`, or a `uint32_t` if the
field is no wider.

There is one statement for a fragment, so the proof is one lemma about a statement, with what C
does to the types in it, and an induction on the fragments. What a fragment has to satisfy is
little: a shift is by less than the width of the variable, and all fragments but the first start
with their byte, so that nothing has to be masked out of them.
-/

namespace WireCodec

open CToken

/-- **A C text executed**, if it is nothing but statements. -/
def CStatement.runText? (text : String) (m : CMemory) : Option CMemory :=
  (parseAll? text).bind fun program => runAll? program m

namespace BitField

variable {f : BitField} {g : Fragment} {m : CMemory} {t : CType} {array x : String}
  {content : List UInt8}

theorem shift_lt (hwidth : 0 < g.width) : g.shift < 8 := by
  simp only [Fragment.shift]
  omega

/-- A fragment that starts with its byte is what is left of the byte when it is shifted. -/
theorem extract_of_lead_eq_zero (hlead : g.lead = 0) (hwidth : g.width ≤ 8) (byte : UInt8) :
    g.extract byte = byte.toNat >>> g.shift := by
  rw [Fragment.extract, Fragment.shift, hlead]
  refine Nat.mod_eq_of_lt ?_
  rw [Nat.shiftRight_eq_div_pow, Nat.div_lt_iff_lt_mul (Nat.two_pow_pos _), ← Nat.pow_add]
  have hpow : g.width + (8 - 0 - g.width) = 8 := by omega
  rw [hpow]
  exact byte.toNat_lt

/-! ### Shifts in C -/

theorem eval?_shiftedRight_word (ht : t.IsWord) {e : CExpression} {n amount : Nat}
    (he : e.eval? m = some (.ofNat t n)) (hn : n < 2 ^ t.width) (h : amount < t.width) :
    (e.shiftedRight amount).eval? m = some (.ofNat t (n >>> amount)) := by
  unfold CExpression.shiftedRight
  split
  · rename_i hzero
    rw [he, hzero, Nat.shiftRight_zero]
  · rw [CExpression.eval?, he, Option.bind_some, CValue.shiftRight?_ofNat (by rwa [ht.limit])
      (by rwa [ht.promoted]), ht.promoted]

theorem eval?_shiftedLeft_word (ht : t.IsWord) {e : CExpression} {n amount : Nat}
    (he : e.eval? m = some (.ofNat t n)) (h : amount < t.width) :
    (e.shiftedLeft amount).eval? m = some (.ofNat t (n <<< amount)) := by
  unfold CExpression.shiftedLeft
  split
  · rename_i hzero
    rw [he, hzero, Nat.shiftLeft_zero]
  · rw [CExpression.eval?, he, Option.bind_some,
      CValue.shiftLeft?_ofNat ht.signed ht.promoted n h]

/-- **The value of an expression is a number below 256**, a byte or promoted to an `int`. -/
def EvaluatesBelow256 (m : CMemory) (e : CExpression) (n : Nat) : Prop :=
  n < 256 ∧ ∃ s, (s = .byte ∨ s = .int) ∧ e.eval? m = some (.ofNat s n)

/-- A byte of an array, shifted or not: only if it is shifted, it is promoted. -/
theorem evaluatesBelow256_shiftedRight {index amount : Nat} {byte : UInt8}
    (harray : m array = some (.bytes content)) (hbyte : content[index]? = some byte)
    (hamount : amount < 8) : EvaluatesBelow256 m
      ((CExpression.element array index).shiftedRight amount) (byte.toNat >>> amount) := by
  have he := CExpression.eval?_element harray hbyte
  refine ⟨Nat.lt_of_le_of_lt (Nat.shiftRight_le _ _) byte.toNat_lt, ?_⟩
  unfold CExpression.shiftedRight
  split
  · rename_i hzero
    exact ⟨.byte, .inl rfl, by rw [he, hzero, Nat.shiftRight_zero]⟩
  · have hwidth : amount < CType.byte.promoted.width := Nat.lt_trans hamount (by decide)
    refine ⟨.int, .inr rfl, ?_⟩
    rw [CExpression.eval?, he, Option.bind_some, CValue.shiftRight?_ofNat byte.toNat_lt hwidth]
    rfl

/-! ### Writing -/

/-- What is put into a byte, as C computes it from a word. -/
theorem eval?_piece (ht : t.IsWord) {n : Nat} (hn : n < 2 ^ t.width)
    (hx : m x = some (.variable t (some (BitVec.ofNat t.width n)))) (hrest : g.rest < t.width)
    (hshift : g.shift < 8) :
    (CExpression.toByte (((CExpression.name x).shiftedRight g.rest).shiftedLeft g.shift)).eval? m =
      some (.ofNat .byte (g.piece (UInt64.ofNat n)).toNat) := by
  have hname : (CExpression.name x).eval? m = some (.ofNat t n) := CExpression.eval?_name hx
  have hwide := ht.width_ge
  have hword : (UInt64.ofNat n).toNat = n := by
    refine UInt64.toNat_ofNat_of_lt' (Nat.lt_of_lt_of_le hn ?_)
    exact Nat.pow_le_pow_right (by decide) ht.width_le
  rw [CExpression.eval?, eval?_shiftedLeft_word ht (eval?_shiftedRight_word ht hname hn hrest)
    (by omega), Option.map_some, CValue.bitsAs_byte_ofNat ht.signed (by omega), Fragment.piece,
    hword, UInt8.toNat_ofNat']
  congr 2
  refine BitVec.eq_of_toNat_eq ?_
  simp [CType.byte]

/-- Only what the byte becomes that is there matters to a change. -/
theorem changeByte?_congr {index : Nat} {change change' : UInt8 → UInt8}
    (h : ∀ old, content[index]? = some old → change old = change' old) :
    changeByte? content index change = changeByte? content index change' := by
  unfold changeByte?
  split
  · rename_i hindex
    rw [List.modify_eq_set, List.modify_eq_set, List.getElem?_eq_getElem hindex, Option.getD_some,
      h _ (List.getElem?_eq_getElem hindex)]
  · rfl

/-- Assignment to an element of an array changes its byte. -/
theorem assign?_element {s : CType} {index n : Nat} (h : m array = some (.bytes content))
    (hn : n < s.limit) : m.assign? (.element array index) (.ofNat s n) =
      (changeByte? content index fun _ => UInt8.ofNat n).map fun c => m.set array (.bytes c) := by
  have hbits : (⟨(CValue.ofNat s n).bitsAs .byte⟩ : UInt8) = UInt8.ofNat n :=
    congrArg UInt8.ofBitVec (CValue.bitsAs_ofNat hn .byte)
  rw [CMemory.assign?, h]
  simp only [hbits, changeByte?, List.modify_eq_set]
  split <;> rfl

/-- **The statement that writes a fragment** changes the fragment's byte as writing does. -/
theorem run?_write (ht : t.IsWord) {n : Nat} (hn : n < 2 ^ t.width)
    (harray : m array = some (.bytes content))
    (hx : m x = some (.variable t (some (BitVec.ofNat t.width n)))) (hrest : g.rest < t.width)
    (hshift : g.shift < 8) (assigns : Bool) :
    (⟨.element array g.index, !assigns, .toByte
      (((CExpression.name x).shiftedRight g.rest).shiftedLeft g.shift)⟩ : CStatement).run? m =
      (changeByte? content g.index fun old =>
        if assigns then g.piece (UInt64.ofNat n) else old ||| g.piece (UInt64.ofNat n)).map
          fun c => m.set array (.bytes c) := by
  have hpiece := eval?_piece (g := g) ht hn hx hrest hshift
  rw [CStatement.run?]
  cases assigns with
  | true =>
    simp only [Bool.not_true, Bool.false_eq_true, if_false, if_true]
    rw [hpiece, Option.bind_some, assign?_element harray (UInt8.toNat_lt _), UInt8.ofNat_toNat]
  | false =>
    simp only [Bool.not_false, Bool.false_eq_true, if_false, if_true]
    by_cases hindex : g.index < content.length
    · -- Both operands are bytes, so they are promoted and joined as numbers below 256.
      have hbyte := CExpression.eval?_element harray (List.getElem?_eq_getElem hindex)
      have hcommon : CType.byte.common .byte = .int := rfl
      have hmerge :
          content[g.index].toNat ||| (g.piece (UInt64.ofNat n)).toNat < CType.int.limit := by
        rw [← UInt8.toNat_or]
        exact Nat.lt_trans (UInt8.toNat_lt _) (by decide)
      rw [CExpression.eval?, hbyte, hpiece, Option.bind_some, Option.map_some, Option.bind_some,
        CValue.bitOr_ofNat (UInt8.toNat_lt _) (UInt8.toNat_lt _), hcommon,
        assign?_element harray hmerge]
      refine congrArg _ (changeByte?_congr fun old hold => ?_)
      obtain rfl : content[g.index] = old :=
        Option.some.inj ((List.getElem?_eq_getElem hindex).symm.trans hold)
      rw [← UInt8.toNat_or, UInt8.ofNat_toNat]
    · have hnone : (CExpression.element array g.index).eval? m = none := by
        simp [CExpression.eval?, harray, List.getElem?_eq_none (Nat.le_of_not_lt hindex)]
      rw [CExpression.eval?, hnone, changeByte?, if_neg hindex]
      rfl

/-- **The statements that write fragments** change the fragments' bytes as writing does, and nothing
else. -/
theorem runAll?_write (ht : t.IsWord) {n : Nat} (hn : n < 2 ^ t.width)
    (harray : m array = some (.bytes content))
    (hx : m x = some (.variable t (some (BitVec.ofNat t.width n)))) (gs : List Fragment)
    (hgs : ∀ g ∈ gs, g.rest < t.width ∧ g.shift < 8) :
    CStatement.runAll? (gs.map fun g => ⟨.element array g.index, !f.assigns g,
      .toByte (((CExpression.name x).shiftedRight g.rest).shiftedLeft g.shift)⟩) m =
      (changeFragments? (fun g old => if f.assigns g then g.piece (UInt64.ofNat n)
        else old ||| g.piece (UInt64.ofNat n)) gs content).map fun c => m.set array (.bytes c) := by
  have hne : x ≠ array := by
    rintro rfl
    rw [harray] at hx
    cases hx
  induction gs generalizing m content with
  | nil => simp [changeFragments?, CMemory.set_eq_self harray]
  | cons g gs ih =>
    obtain ⟨⟨hrest, hshift⟩, hgs⟩ := List.forall_mem_cons.mp hgs
    rw [List.map_cons, CStatement.runAll?_cons, run?_write ht hn harray hx hrest hshift,
      changeFragments?, List.foldlM_cons]
    cases changeByte? content g.index _ with
    | none => rfl
    | some c =>
      simp only [Option.map_some, Option.bind_some]
      rw [ih (CMemory.set_self m array _) ((CMemory.set_of_ne m hne _).trans hx) hgs]
      simp only [CMemory.set_set]
      rfl

/-! ### Reading -/

/-- The first statement assigns the number of the fragment's bits. -/
theorem evaluatesBelow256_cReadFirst {byte : UInt8} (harray : m array = some (.bytes content))
    (hbyte : content[g.index]? = some byte) (hwidth : 0 < g.width) (hfits : g.lead + g.width ≤ 8) :
    EvaluatesBelow256 m (cReadFirst array g) (g.extract byte) := by
  have hshift : g.shift < 8 := shift_lt hwidth
  obtain ⟨hlt, s, hs, heval⟩ := evaluatesBelow256_shiftedRight harray hbyte hshift
  unfold cReadFirst
  split
  · rename_i hlead
    rw [extract_of_lead_eq_zero hlead (by omega)]
    exact ⟨hlt, s, hs, heval⟩
  · -- Parentheses around the bits do not change their value.
    have hbits : CExpression.eval? m (if g.rest = 0 then
        ((CExpression.element array g.index).shiftedRight g.shift).group
        else (CExpression.element array g.index).shiftedRight g.shift) =
        some (.ofNat s (byte.toNat >>> g.shift)) := by
      split
      · rw [CExpression.eval?, heval]
      · exact heval
    have hmask : 2 ^ g.width - 1 < CType.int.limit := by
      have hle : 2 ^ g.width ≤ 2 ^ 8 := Nat.pow_le_pow_right (by decide) (by omega)
      change 2 ^ g.width - 1 < 2 ^ 31
      omega
    have hcommon : s.common .int = .int := by
      rcases hs with rfl | rfl <;> rfl
    refine ⟨Nat.lt_of_le_of_lt (Nat.mod_le _ _) hlt, .int, .inr rfl, ?_⟩
    rw [CExpression.eval?, hbits, Option.bind_some, CValue.constant?, if_pos hmask, Option.map_some,
      CValue.bitAnd_ofNat (Nat.lt_of_lt_of_le hlt (CType.le_limit hs)) hmask, hcommon,
      Nat.and_two_pow_sub_one_eq_mod, Fragment.extract]

/-- A later statement assigns the number that has been read before, with the fragment's bits behind
it. The shift loses only what the variable has no bits for. -/
theorem eval?_cReadNext (ht : t.IsWord) {byte : UInt8} {n : Nat}
    (harray : m array = some (.bytes content)) (hbyte : content[g.index]? = some byte)
    (hx : m x = some (.variable t (some (BitVec.ofNat t.width n)))) (hlead : g.lead = 0)
    (hwidth : 0 < g.width) (hfits : g.lead + g.width ≤ 8) :
    (cReadNext array x g).eval? m = some (.ofNat t (n <<< g.width ||| g.extract byte)) := by
  have hshift : g.shift < 8 := shift_lt hwidth
  have hwide := ht.width_ge
  have hname : (CExpression.name x).eval? m = some (.ofNat t n) := CExpression.eval?_name hx
  obtain ⟨hlt, s, hs, heval⟩ := evaluatesBelow256_shiftedRight harray hbyte hshift
  have hbits : CExpression.eval? m (if g.shift = 0 then .element array g.index
      else .group (.shiftRight (.element array g.index) g.shift)) =
      some (.ofNat s (byte.toNat >>> g.shift)) := by
    rw [← heval, CExpression.shiftedRight]
    split <;> rfl
  rw [cReadNext, CExpression.eval?, CExpression.eval?, CExpression.eval?, hname, Option.bind_some,
    CValue.shiftLeft?_ofNat ht.signed ht.promoted n (by omega), Option.bind_some, hbits,
    Option.map_some, CValue.bitOr_word ht hs (Nat.lt_of_lt_of_le hlt (CType.le_limit hs)),
    extract_of_lead_eq_zero hlead (by omega)]

/-- Assignment to a variable. -/
theorem run?_name {held : Option (BitVec t.width)} {e : CExpression} {v : CValue}
    (hx : m x = some (.variable t held)) (he : e.eval? m = some v) :
    (⟨.name x, false, e⟩ : CStatement).run? m =
      some (m.set x (.variable t (some (v.bitsAs t)))) := by
  simp [CStatement.run?, he, CMemory.assign?, hx]

/-- **The later statements that read a field** go on from a number as reading does. -/
theorem runAll?_readNext (ht : t.IsWord) (harray : m array = some (.bytes content))
    (hne : array ≠ x) {start number : Nat} (gs : List Fragment)
    (hgs : ∀ g ∈ gs, g.lead = 0 ∧ 0 < g.width ∧ g.lead + g.width ≤ 8)
    (hread : gs.foldlM (m := Option)
      (fun value g => content[g.index]?.map fun byte => value <<< g.width ||| g.extract byte)
        start = some number) :
    CStatement.runAll? (gs.map fun g => ⟨.name x, false, cReadNext array x g⟩)
      (m.set x (.variable t (some (BitVec.ofNat t.width start)))) =
      some (m.set x (.variable t (some (BitVec.ofNat t.width number)))) := by
  induction gs generalizing start with
  | nil =>
    obtain rfl : start = number := by simpa using hread
    rfl
  | cons g gs ih =>
    obtain ⟨⟨hlead, hwidth, hfits⟩, hgs⟩ := List.forall_mem_cons.mp hgs
    rw [List.foldlM_cons] at hread
    cases hbyte : content[g.index]? with
    | none => simp [hbyte] at hread
    | some byte =>
      rw [hbyte] at hread
      have harray' : ∀ o, (m.set x o) array = some (.bytes content) := fun o =>
        (CMemory.set_of_ne m hne o).trans harray
      have hx := CMemory.set_self m x (.variable t (some (BitVec.ofNat t.width start)))
      rw [List.map_cons, CStatement.runAll?_cons,
        run?_name hx (eval?_cReadNext ht (harray' _) hbyte hx hlead hwidth hfits), Option.bind_some,
        CValue.bitsAs_self, CMemory.set_set]
      exact ih hgs hread

/-- **The statements that read a field** leave its number in the variable, whatever was in it
before, and change nothing else. -/
theorem runAll?_cRead (ht : t.IsWord) (hf : f.width ≠ 0) (harray : m array = some (.bytes content))
    {held : Option (BitVec t.width)} (hx : m x = some (.variable t held)) {number : Nat}
    (hread : f.fragments.foldlM (m := Option)
      (fun value g => content[g.index]?.map fun byte => value <<< g.width ||| g.extract byte) 0 =
        some number) :
    CStatement.runAll? (f.cRead array x) m =
      some (m.set x (.variable t (some (BitVec.ofNat t.width number)))) := by
  have hne : array ≠ x := by
    rintro rfl
    rw [harray] at hx
    cases hx
  have hbounds := fun g => fragment_bounds (f := f) (g := g)
  rw [cRead]
  rw [fragments_eq_cons hf] at hread hbounds ⊢
  obtain ⟨-, -, hwidth, hfits⟩ := hbounds _ List.mem_cons_self
  rw [List.foldlM_cons] at hread
  cases hbyte : content[(f.fragmentIn (f.offset / 8)).index]? with
  | none => simp [hbyte] at hread
  | some byte =>
    simp only [hbyte, Option.map_some, Nat.zero_shiftLeft, Nat.zero_or] at hread
    obtain ⟨hlt, s, hs, heval⟩ := evaluatesBelow256_cReadFirst harray hbyte hwidth hfits
    simp only
    rw [CStatement.runAll?_cons, run?_name hx heval, Option.bind_some,
      CValue.bitsAs_ofNat (Nat.lt_of_lt_of_le hlt (CType.le_limit hs))]
    refine runAll?_readNext ht harray hne _ (fun g hg => ?_) hread
    obtain ⟨-, -, hwidth, hfits⟩ := hbounds g (List.mem_cons_of_mem _ hg)
    exact ⟨lead_eq_zero_of_mem_rest hg, hwidth, hfits⟩

/-- **The number that reading finds fits the field.** -/
theorem exists_read?_eq_some (f : BitField) (buffer : List UInt8) (hwidth : f.width ≤ 64)
    (h : f.offset + f.width ≤ 8 * buffer.length) :
    ∃ number, f.fragments.foldlM (m := Option)
      (fun value g => buffer[g.index]?.map fun byte => value <<< g.width ||| g.extract byte) 0 =
        some number ∧ number < 2 ^ f.width ∧ f.read? buffer = some (UInt64.ofNat number) ∧
        (UInt64.ofNat number).toNat = number := by
  obtain ⟨number, hnumber, hlt, -⟩ := f.exists_foldlM_extract buffer h
  refine ⟨number, hnumber, hlt, by rw [read?, hnumber, Option.map_some], ?_⟩
  refine UInt64.toNat_ofNat_of_lt' (Nat.lt_of_lt_of_le hlt ?_)
  exact Nat.pow_le_pow_right (by decide) hwidth

/-! ### The texts -/

section Readable

variable (harray : isName array.toList = true) (hx : isName x.toList = true)
include harray hx

theorem isReadable_of_mem_cWrite {s : CStatement} (hs : s ∈ f.cWrite array x) : s.IsReadable := by
  obtain ⟨g, -, rfl⟩ := List.mem_map.mp hs
  refine ⟨.inr ⟨array, g.index, rfl⟩, harray, ?_⟩
  obtain ⟨hright, hshift⟩ :=
    CExpression.isReadable_shiftedRight (e := .name x) hx trivial g.rest
  exact (CExpression.isReadable_shiftedLeft hright hshift g.shift).1

omit hx in
theorem isReadable_cReadFirst (g : Fragment) : (cReadFirst array g).IsReadable := by
  obtain ⟨hbits, hshift⟩ :=
    CExpression.isReadable_shiftedRight (e := .element array g.index) harray trivial g.shift
  unfold cReadFirst
  split
  · exact hbits
  · split
    · exact ⟨hbits, trivial⟩
    · exact ⟨hbits, hshift.isConjunction⟩

theorem isReadable_cReadNext (g : Fragment) : (cReadNext array x g).IsReadable := by
  refine ⟨⟨⟨hx, trivial⟩, trivial⟩, ?_⟩
  split
  · exact ⟨harray, trivial⟩
  · exact ⟨⟨harray, trivial⟩, trivial⟩

theorem isReadable_of_mem_cRead {s : CStatement} (hs : s ∈ f.cRead array x) : s.IsReadable := by
  rw [cRead] at hs
  split at hs
  · simp at hs
  · rcases List.mem_cons.mp hs with rfl | hs
    · exact ⟨.inl ⟨x, rfl⟩, hx, isReadable_cReadFirst harray _⟩
    · obtain ⟨g, -, rfl⟩ := List.mem_map.mp hs
      exact ⟨.inl ⟨x, rfl⟩, hx, isReadable_cReadNext harray hx g⟩

end Readable

/-- **The C texts of a field do what the field does.** The text that writes a field leaves the bytes
that writing leaves, of the argument modulo the number of values of its type. The text that reads a
field leaves its number in the variable, whatever was in it before, and even if nothing was. Both
leave everything else in the memory as it is. -/
theorem runText?_write_and_read (ht : t.IsWord) (hpos : f.width ≠ 0) (hwidth : f.width ≤ t.width)
    (harray : isName array.toList = true) (hx : isName x.toList = true)
    (hcontent : m array = some (.bytes content))
    (hlarge : f.offset + f.width ≤ 8 * content.length) :
    (∀ value : UInt64, m x = some (.variable t (some (BitVec.ofNat t.width value.toNat))) →
      ∃ content', f.write? content (UInt64.ofNat (value.toNat % 2 ^ t.width)) = some content' ∧
        CStatement.runText? (CStatement.renderAll (f.cWrite array x)) m =
          some (m.set array (.bytes content'))) ∧
    ∀ held, m x = some (.variable t held) →
      ∃ value : UInt64, f.read? content = some value ∧ value.toNat < 2 ^ t.width ∧
        CStatement.runText? (CStatement.renderAll (f.cRead array x)) m =
          some (m.set x (.variable t (some (BitVec.ofNat t.width value.toNat)))) := by
  refine ⟨fun value hvalue => ?_, fun held hheld => ?_⟩
  · have hn : value.toNat % 2 ^ t.width < 2 ^ t.width := Nat.mod_lt _ (Nat.two_pow_pos _)
    have hmod : BitVec.ofNat t.width value.toNat =
        BitVec.ofNat t.width (value.toNat % 2 ^ t.width) := by
      refine BitVec.eq_of_toNat_eq ?_
      rw [BitVec.toNat_ofNat, BitVec.toNat_ofNat, Nat.mod_mod]
    have hgs : ∀ g ∈ f.fragments, g.rest < t.width ∧ g.shift < 8 := fun g hg =>
      ⟨Nat.lt_of_lt_of_le (fragment_bounds hg).1 hwidth, (fragment_bounds hg).2.1⟩
    obtain ⟨content', hwrite, -⟩ := exists_write?_eq_some f content
      (UInt64.ofNat (value.toNat % 2 ^ t.width)) hlarge
    rw [hmod] at hvalue
    refine ⟨content', hwrite, ?_⟩
    rw [CStatement.runText?, CStatement.parseAll?_renderAll _ fun s hs =>
      isReadable_of_mem_cWrite harray hx hs, Option.bind_some, cWrite,
      runAll?_write ht hn hcontent hvalue _ hgs, ← write?_eq, hwrite, Option.map_some]
  · obtain ⟨number, hnumber, hlt, hread, hvalue⟩ :=
      exists_read?_eq_some f content (Nat.le_trans hwidth ht.width_le) hlarge
    refine ⟨_, hread, ?_, ?_⟩
    · rw [hvalue]
      exact Nat.lt_of_lt_of_le hlt (Nat.pow_le_pow_right (by decide) hwidth)
    · rw [CStatement.runText?, CStatement.parseAll?_renderAll _ fun s hs =>
        isReadable_of_mem_cRead harray hx hs, Option.bind_some,
        runAll?_cRead ht hpos hcontent hheld hnumber, hvalue]

/-- A field of twelve bits in three bytes, written from a `uint32_t` and read into it. -/
theorem runText?_across_bytes :
    ∃ m : CMemory, m "buf" = some (.bytes [0x81, 0xFF, 0x95]) ∧
      m "v" = some (.variable .word32 (some 0xABD#32)) ∧
      CStatement.runText? ("buf[0] |= (uint8_t)(v >> 10);\n" ++ "buf[1] = (uint8_t)(v >> 2);\n" ++
        "buf[2] |= (uint8_t)(v << 6);") m = some (m.set "buf" (.bytes [0x83, 0xAF, 0xD5])) ∧
      CStatement.runText? ("v = buf[0] & 0x3;\n" ++ "v = (v << 8) | buf[1];\n" ++
        "v = (v << 2) | (buf[2] >> 6);") m =
          some (m.set "v" (.variable .word32 (some 0x7FE#32))) := by
  obtain ⟨m, hbuf, hv⟩ : ∃ m : CMemory, m "buf" = some (.bytes [0x81, 0xFF, 0x95]) ∧
      m "v" = some (.variable .word32 (some 0xABD#32)) :=
    ⟨fun x => if x = "buf" then some (.bytes [0x81, 0xFF, 0x95])
      else some (.variable .word32 (some 0xABD#32)), rfl, rfl⟩
  obtain ⟨hwrites, hreads⟩ := @runText?_write_and_read ⟨6, 12⟩ m .word32 "buf" "v"
    [0x81, 0xFF, 0x95] (.inl rfl) (by decide) (by decide) (by decide) (by decide) hbuf (by decide)
  obtain ⟨content, hwrite, hwritten⟩ := hwrites 0xABD hv
  obtain ⟨value, hread, -, hleft⟩ := hreads _ hv
  obtain rfl : content = [0x83, 0xAF, 0xD5] :=
    Option.some.inj (hwrite.symm.trans (by decide +kernel))
  obtain rfl : value = 0x7FE := Option.some.inj (hread.symm.trans (by decide +kernel))
  have hwriteText : CStatement.renderAll ((⟨6, 12⟩ : BitField).cWrite "buf" "v") =
      "buf[0] |= (uint8_t)(v >> 10);\n" ++ "buf[1] = (uint8_t)(v >> 2);\n" ++
        "buf[2] |= (uint8_t)(v << 6);" := by decide +kernel
  have hreadText : CStatement.renderAll ((⟨6, 12⟩ : BitField).cRead "buf" "v") =
      "v = buf[0] & 0x3;\n" ++ "v = (v << 8) | buf[1];\n" ++
        "v = (v << 2) | (buf[2] >> 6);" := by decide +kernel
  rw [hwriteText] at hwritten
  rw [hreadText] at hleft
  exact ⟨m, hbuf, hv, hwritten, hleft⟩

end BitField

end WireCodec
