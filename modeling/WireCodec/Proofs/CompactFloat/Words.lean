import Mathlib.Data.Nat.Bitwise
import WireCodec.Proofs.CompactFloat.Decoding
import WireCodec.Proofs.CompactFloat.Range

/-!
# Compact numbers in words of 32 bits

A program encodes and decodes in words of 32 bits, and there every step can go wrong: a shift by 32
places or more, a sum or a difference that the word does not hold, a negative number in a word
without a sign. This file does both conversions that way, one operation after another. Each
operation computes exactly and has a result only if the word holds it (`WireCodec.unsigned?`,
`WireCodec.signed?`, `WireCodec.shiftUp?`, `WireCodec.shiftDown?`), so that a conversion has a
result only if nothing goes wrong on the way.

Nothing does: `WireCodec.CompactFormat.encodeInWords?` has the result of
`WireCodec.CompactFormat.encode` for every 32-bit pattern
(`WireCodec.CompactFormat.encodeInWords?_eq`), and `WireCodec.CompactFormat.decodeInWords?` that of
`WireCodec.CompactFormat.decode` for every compact pattern
(`WireCodec.CompactFormat.decodeInWords?_eq`). All bounds come from the format, which has at most 24
bits (`WireCodec.CompactFormat.two_pow_le`); the only shift that is not bounded by it is the one of
a number without an implied one, and that is cut off before.

The loop that brings a leading one into place is a loop here too (`WireCodec.leadingOne?`). It is
only run on words that have a one, where `WireCodec.ShiftsUp` says where it ends; for a word without
a one it would go on until the exponent overflows.
-/

namespace WireCodec

/-! ### Words -/

/-- The number in a word without a sign, if it holds it. -/
def unsigned? (n : ℤ) : Option ℕ :=
  if 0 ≤ n ∧ n < 2 ^ 32 then some n.toNat else none

/-- The number in a word with a sign, if it holds it. -/
def signed? (n : ℤ) : Option ℤ :=
  if -2 ^ 31 ≤ n ∧ n < 2 ^ 31 then some n else none

/-- A word shifted up by fewer places than it has. The bits that come out at the top are lost. -/
def shiftUp? (word places : ℕ) : Option ℕ :=
  if places < 32 then some ((word <<< places) % 2 ^ 32) else none

/-- A word shifted down by fewer places than it has. -/
def shiftDown? (word places : ℕ) : Option ℕ :=
  if places < 32 then some (word >>> places) else none

section Words

variable {α β : Type} {word places bits low high : ℕ}

/-- A run goes on with the result of its first operation. -/
theorem bind_of_eq_some {first : Option α} {a : α} (h : first = some a) (next : α → Option β) :
    first >>= next = next a := by
  rw [h]
  rfl

theorem unsigned?_eq {n : ℤ} (h : n = word) (hlt : word < 2 ^ 32) : unsigned? n = some word := by
  subst h
  rw [unsigned?, if_pos ⟨by omega, by omega⟩, Int.toNat_natCast]

theorem signed?_eq {n : ℤ} (hle : -2 ^ 31 ≤ n) (hlt : n < 2 ^ 31) : signed? n = some n :=
  if_pos ⟨hle, hlt⟩

theorem signed?_eq_some_iff {n m : ℤ} :
    signed? n = some m ↔ n = m ∧ -2 ^ 31 ≤ m ∧ m < 2 ^ 31 := by
  rw [signed?, Option.ite_none_right_eq_some, Option.some_inj]
  constructor
  · rintro ⟨hbounds, rfl⟩
    exact ⟨rfl, hbounds⟩
  · rintro ⟨rfl, hbounds⟩
    exact ⟨hbounds, rfl⟩

/-- Nothing is lost if the word has room for the result. -/
theorem shiftUp?_eq (hplaces : places < 32) (hlt : word * 2 ^ places < 2 ^ 32) :
    shiftUp? word places = some (word * 2 ^ places) := by
  rw [shiftUp?, if_pos hplaces, Nat.shiftLeft_eq, Nat.mod_eq_of_lt hlt]

/-- One bit has room at every place. -/
theorem shiftUp?_one (hplaces : places < 32) : shiftUp? 1 places = some (2 ^ places) := by
  have hlt : 1 * 2 ^ places < 2 ^ 32 := by
    rw [Nat.one_mul]
    exact Nat.pow_lt_pow_right (by decide) hplaces
  rw [shiftUp?_eq hplaces hlt, Nat.one_mul]

theorem shiftDown?_eq (hplaces : places < 32) :
    shiftDown? word places = some (word / 2 ^ places) := by
  rw [shiftDown?, if_pos hplaces, Nat.shiftRight_eq_div_pow]

/-- Bits that are joined with bits above them are added to them. -/
theorem or_eq_add (h : low < 2 ^ bits) : high * 2 ^ bits ||| low = high * 2 ^ bits + low := by
  rw [Nat.mul_comm, Nat.two_pow_add_eq_or_of_lt h]

end Words

/-! ### The loop -/

/-- **The loop that brings a leading one into place, in words.** A word without a one is shifted
until the exponent is out of the range of a word, and then there is no result. -/
def leadingOne? (bits : ℕ) (exponent : ℤ) (word : ℕ) : Option (ℤ × ℕ) := do
  if word &&& (← shiftUp? 1 bits) = 0 then
    match _ : signed? (exponent - 1) with
    | none => none
    | some lower => leadingOne? bits lower (← shiftUp? word 1)
  else return (exponent, word)
termination_by (exponent + 2 ^ 31).toNat
decreasing_by
  obtain ⟨hlower, hle, -⟩ := signed?_eq_some_iff.1 ‹signed? (exponent - 1) = some lower›
  omega

section Loop

variable {bits word shifted : ℕ} {exponent leading : ℤ}

/-- In the loop an exponent only goes down. -/
theorem ShiftsUp.le (h : ShiftsUp bits exponent word leading shifted) : leading ≤ exponent := by
  induction h with
  | stop => exact le_refl _
  | next _ _ ih => omega

/-- **The loop goes through** if it ends at an exponent that a word holds. -/
theorem leadingOne?_eq_of_shiftsUp (hbits : bits < 32)
    (h : ShiftsUp bits exponent word leading shifted) (hle : -2 ^ 31 ≤ leading)
    (hlt : exponent < 2 ^ 31) : leadingOne? bits exponent word = some (leading, shifted) := by
  induction h with
  | stop hset =>
    rw [leadingOne?, bind_of_eq_some (shiftUp?_one hbits), Nat.and_two_pow, hset,
      if_neg (by simp)]
    rfl
  | @next exponent leading word shifted hclear hnext ih =>
    -- The exponent has not come down to `leading` yet, so that it can go on.
    have hstep := hnext.le
    have hword : shiftUp? word 1 = some (word * 2 % 2 ^ 32) := by
      rw [shiftUp?, if_pos (by decide), Nat.shiftLeft_eq, Nat.pow_one]
    rw [leadingOne?, bind_of_eq_some (shiftUp?_one hbits), Nat.and_two_pow, hclear,
      if_pos (by simp)]
    split
    · rename_i hnone
      rw [signed?_eq (by omega) (by omega)] at hnone
      contradiction
    · rename_i lower hlower
      obtain ⟨rfl, -⟩ := signed?_eq_some_iff.1 hlower
      rw [bind_of_eq_some hword]
      exact ih hle (by omega)

end Loop

namespace CompactFormat

variable {f : CompactFormat} {n places exponent significand : ℕ}

/-! ### Encoding -/

/-- The number of exponent bits, in words. -/
def exponentBitsInWords? (f : CompactFormat) : Option ℕ := do
  let belowSign ← unsigned? (f.width.bits - 1)
  unsigned? (belowSign - f.significandBits)

/-- What is added to an exponent, in words. -/
def biasInWords? (f : CompactFormat) : Option ℤ := do
  let exponentBits ← f.exponentBitsInWords?
  let middle ← shiftUp? 1 (← unsigned? (exponentBits - 1))
  signed? ((← signed? middle) - 1)

/-- The significand field of all ones, in words. -/
def maxSignificandInWords? (f : CompactFormat) : Option ℕ := do
  unsigned? ((← shiftUp? 1 f.significandBits) - 1)

/-- An exponent field above a significand field, in words. -/
def joinInWords? (f : CompactFormat) (field significand : ℕ) : Option ℕ := do
  return (← shiftUp? field f.significandBits) ||| significand

/-- The pattern of the largest finite number, in words. -/
def maxPatternInWords? (f : CompactFormat) : Option ℕ := do
  let exponentBits ← f.exponentBitsInWords?
  let field ← unsigned? ((← shiftUp? 1 exponentBits) - 2)
  f.joinInWords? field (← f.maxSignificandInWords?)

/-- `n / 2 ^ places`, rounded half up, in words. -/
def roundShiftInWords? (n places : ℕ) : Option ℕ := do
  let half ← shiftUp? 1 (← unsigned? (places - 1))
  shiftDown? (← unsigned? (n + half)) places

/-- The rounded significand, in words. -/
def roundSignificandInWords? (f : CompactFormat) (significand : ℕ) : Option ℕ := do
  let rounded ← roundShiftInWords? significand (← unsigned? (23 - f.significandBits))
  let greatest ← f.maxSignificandInWords?
  return if greatest ≤ rounded then greatest else rounded

/-- The bits below the sign for the exponent and significand fields of a 32-bit pattern, in
words. -/
def encodeMagnitudeInWords? (f : CompactFormat) (exponent significand : ℕ) : Option ℕ := do
  let rounded ← f.roundSignificandInWords? significand
  let bias ← f.biasInWords?
  let unbiased ← signed? ((← signed? exponent) - 127)
  if unbiased ≤ (← signed? (-bias)) then
    let below ← signed? ((← signed? (-bias)) - unbiased)
    let places ← unsigned? (← signed? (1 + below))
    let impliedOne ← shiftUp? 1 f.significandBits
    if vanishingShift ≤ places then return 0
    else roundShiftInWords? (impliedOne ||| rounded) places
  else if bias < unbiased then f.maxPatternInWords?
  else
    let field ← unsigned? (← signed? (unbiased + bias))
    f.joinInWords? field rounded

/-- **The compact pattern of a 32-bit pattern, in words.** -/
def encodeInWords? (f : CompactFormat) (word : ℕ) : Option ℕ := do
  let sign ← shiftDown? word 31
  let exponent := (← shiftDown? word 23) &&& 0xFF
  let significand := word &&& 0x7FFFFF
  let signField ← shiftUp? sign (← unsigned? (f.width.bits - 1))
  if exponent = 0 ∧ significand = 0 then return signField
  else return (← f.encodeMagnitudeInWords? exponent significand) ||| signField

/-! ### Decoding -/

/-- The exponent of a leading one and the significand bits after it, in words. -/
def normalizeInWords? (f : CompactFormat) (exponent significand : ℕ) : Option (ℤ × ℕ) := do
  let bias ← f.biasInWords?
  if exponent = 0 then
    let (leading, shifted) ← leadingOne? f.significandBits (← signed? (1 - bias)) significand
    return (leading, shifted &&& (← f.maxSignificandInWords?))
  else return (← signed? ((← signed? exponent) - bias), significand)

/-- The 32-bit pattern with the given sign bit, exponent and significand bits after the leading one,
in words. -/
def widenInWords? (f : CompactFormat) (sign : ℕ) (leading : ℤ) (behind : ℕ) :
    Option Binary32 := do
  let rebiased ← signed? (leading + 127)
  if 254 < rebiased then return .ofFields (sign != 0) 255 0
  else if rebiased < 1 then return .ofFields (sign != 0) 0 0
  else
    let signField ← shiftUp? sign 31
    let exponentField ← shiftUp? (← unsigned? rebiased) 23
    let significandField ← shiftUp? behind (← unsigned? (23 - f.significandBits))
    return ⟨UInt32.ofNat (signField ||| exponentField ||| significandField)⟩

/-- **The 32-bit pattern of a compact pattern, in words.** -/
def decodeInWords? (f : CompactFormat) (pattern : ℕ) : Option Binary32 := do
  let signPlace ← unsigned? (f.width.bits - 1)
  let sign := (← shiftDown? pattern signPlace) &&& 1
  let magnitude := pattern &&& (← unsigned? ((← shiftUp? 1 signPlace) - 1))
  if magnitude = 0 then return .ofFields (sign != 0) 0 0
  else
    let greatest ← unsigned? ((← shiftUp? 1 (← f.exponentBitsInWords?)) - 1)
    let exponent := (← shiftDown? magnitude f.significandBits) &&& greatest
    let significand := magnitude &&& (← f.maxSignificandInWords?)
    let (leading, behind) ← f.normalizeInWords? exponent significand
    f.widenInWords? sign leading behind

/-! ### What there is room for -/

/-- A format has at most 24 bits, at least four of them for the significand. -/
theorem width_le (f : CompactFormat) : f.width.bits ≤ 24 ∧ 4 ≤ f.significandBits := by
  obtain ⟨width, significandBits, hmin, hmax⟩ := f
  cases width with
  | bits16 => exact ⟨Nat.le_of_ble_eq_true rfl, hmin⟩
  | bits24 => exact ⟨Nat.le_refl _, hmin⟩

/-- The exponent field and the significand field take all bits below the sign. -/
theorem two_pow_fields (f : CompactFormat) :
    2 ^ f.exponentBits * 2 ^ f.significandBits = 2 ^ (f.width.bits - 1) := by
  rw [← Nat.pow_add, f.width_eq.1, Nat.add_sub_cancel]

/-- The bits below the sign are far fewer than those of a word. -/
theorem two_pow_signPlace_le (f : CompactFormat) : 2 ^ (f.width.bits - 1) ≤ 2 ^ 23 :=
  Nat.pow_le_pow_right Nat.two_pos (Nat.sub_le_sub_right f.width_le.1 1)

/-- **The bounds of a format**, all far below what a word holds. -/
theorem two_pow_le (f : CompactFormat) :
    2 ^ f.significandBits ≤ 2 ^ 20 ∧ 2 ^ f.exponentBits ≤ 2 ^ 19 ∧
      2 ^ f.exponentBits * 2 ^ f.significandBits ≤ 2 ^ 23 := by
  obtain ⟨hwidth, hexponent, hsignificand⟩ := f.width_eq
  obtain ⟨hbits, hleast⟩ := f.width_le
  refine ⟨Nat.pow_le_pow_right (by decide) hsignificand,
    Nat.pow_le_pow_right (by decide) (by omega), ?_⟩
  rw [two_pow_fields]
  exact f.two_pow_signPlace_le

/-- The bias is far from the ends of a word with a sign, and so are all exponents. -/
theorem bias_lt (f : CompactFormat) : f.bias < 2 ^ 18 := by
  have hdouble := f.two_mul_bias
  obtain ⟨-, hle, -⟩ := f.two_pow_le
  omega

/-! ### Encoding goes through -/

theorem signPlace_eq (f : CompactFormat) :
    unsigned? (f.width.bits - 1) = some (f.width.bits - 1) := by
  obtain ⟨hwidth, -, -⟩ := f.width_eq
  obtain ⟨hbits, -⟩ := f.width_le
  exact unsigned?_eq (by omega) (by omega)

theorem exponentBitsInWords?_eq (f : CompactFormat) :
    f.exponentBitsInWords? = some f.exponentBits := by
  obtain ⟨hwidth, hexponent, -⟩ := f.width_eq
  obtain ⟨hbits, -⟩ := f.width_le
  have hrest : unsigned? ((f.width.bits - 1 : ℕ) - f.significandBits) = some f.exponentBits :=
    unsigned?_eq (by omega) (by omega)
  rw [exponentBitsInWords?, bind_of_eq_some f.signPlace_eq, hrest]

theorem biasInWords?_eq (f : CompactFormat) : f.biasInWords? = some (f.bias : ℤ) := by
  obtain ⟨hwidth, hexponent, -⟩ := f.width_eq
  obtain ⟨hbits, -⟩ := f.width_le
  obtain ⟨-, hle, -⟩ := f.two_pow_le
  have hdouble := f.two_mul_bias
  have hmiddle : 2 ^ (f.exponentBits - 1) = f.bias + 1 := by
    have hpos := Nat.two_pow_pos (f.exponentBits - 1)
    rw [bias]
    omega
  have hplaces : unsigned? (f.exponentBits - 1) = some (f.exponentBits - 1) :=
    unsigned?_eq (by omega) (by omega)
  have hshifted : shiftUp? 1 (f.exponentBits - 1) = some (f.bias + 1) := by
    rw [shiftUp?_one (by omega), hmiddle]
  have hsigned : signed? (f.bias + 1 : ℕ) = some ((f.bias + 1 : ℕ) : ℤ) :=
    signed?_eq (by omega) (by omega)
  have hresult : signed? ((f.bias + 1 : ℕ) - 1) = some (f.bias : ℤ) := by
    rw [signed?_eq (by omega) (by omega), Nat.cast_succ, add_sub_cancel_right]
  rw [biasInWords?, bind_of_eq_some f.exponentBitsInWords?_eq, bind_of_eq_some hplaces,
    bind_of_eq_some hshifted, bind_of_eq_some hsigned, hresult]

theorem maxSignificandInWords?_eq (f : CompactFormat) :
    f.maxSignificandInWords? = some f.maxSignificand := by
  obtain ⟨-, -, hbits⟩ := f.width_eq
  obtain ⟨hle, -, -⟩ := f.two_pow_le
  have hpos := Nat.two_pow_pos f.significandBits
  have hresult : unsigned? ((2 ^ f.significandBits : ℕ) - 1) = some f.maxSignificand :=
    unsigned?_eq (by rw [maxSignificand]; omega) (by rw [maxSignificand]; omega)
  rw [maxSignificandInWords?, bind_of_eq_some (shiftUp?_one (by omega)), hresult]

/-- **Fields of the format** are joined without a loss. -/
theorem joinInWords?_eq {field : ℕ} (hfield : field < 2 ^ f.exponentBits)
    (hlt : significand < 2 ^ f.significandBits) :
    f.joinInWords? field significand = some (field * 2 ^ f.significandBits + significand) := by
  obtain ⟨-, -, hbits⟩ := f.width_eq
  obtain ⟨-, -, hle⟩ := f.two_pow_le
  have hroom : field * 2 ^ f.significandBits ≤ 2 ^ f.exponentBits * 2 ^ f.significandBits :=
    Nat.mul_le_mul_right _ hfield.le
  rw [joinInWords?, bind_of_eq_some (shiftUp?_eq (by omega) (by omega)), or_eq_add hlt]
  rfl

theorem maxPatternInWords?_eq (f : CompactFormat) :
    f.maxPatternInWords? = some f.maxPattern := by
  obtain ⟨hwidth, -, -⟩ := f.width_eq
  obtain ⟨hbits, hleast⟩ := f.width_le
  obtain ⟨-, hle, -⟩ := f.two_pow_le
  have hdouble := f.two_mul_bias
  have hfield : unsigned? ((2 ^ f.exponentBits : ℕ) - 2) = some (2 ^ f.exponentBits - 2) :=
    unsigned?_eq (by omega) (by omega)
  rw [maxPatternInWords?, bind_of_eq_some f.exponentBitsInWords?_eq,
    bind_of_eq_some (shiftUp?_one (by omega)), bind_of_eq_some hfield,
    bind_of_eq_some f.maxSignificandInWords?_eq, joinInWords?_eq (by omega) f.maxSignificand_lt]
  rfl

/-- **A number is rounded** without an overflow if it and half of what it is divided by fit into a
word together. -/
theorem roundShiftInWords?_eq (hpos : 0 < places) (hplaces : places < 32)
    (hlt : n + 2 ^ (places - 1) < 2 ^ 32) :
    roundShiftInWords? n places = some (roundShift n places) := by
  have hhalf : unsigned? (places - 1) = some (places - 1) := unsigned?_eq (by omega) (by omega)
  have hsum : unsigned? (n + (2 ^ (places - 1) : ℕ)) = some (n + 2 ^ (places - 1)) :=
    unsigned?_eq (Nat.cast_add _ _).symm hlt
  rw [roundShiftInWords?, bind_of_eq_some hhalf, bind_of_eq_some (shiftUp?_one (by omega)),
    bind_of_eq_some hsum, shiftDown?_eq hplaces, roundShift]

/-- A significand that gets its implied one is rounded without an overflow. -/
theorem roundShiftInWords?_implied (hlt : significand < 2 ^ f.significandBits) (hpos : 0 < places)
    (hplaces : places < vanishingShift) :
    roundShiftInWords? (2 ^ f.significandBits ||| significand) places =
      some (roundShift (significand + 2 ^ f.significandBits) places) := by
  obtain ⟨hpower, -, -⟩ := f.two_pow_le
  have hshort : places < 16 := hplaces
  have hhalf : 2 ^ (places - 1) ≤ 2 ^ 14 := Nat.pow_le_pow_right Nat.two_pos (by omega)
  have hone : 2 ^ f.significandBits ||| significand = significand + 2 ^ f.significandBits := by
    rw [← Nat.one_mul (2 ^ f.significandBits), or_eq_add hlt, Nat.add_comm]
  rw [hone, roundShiftInWords?_eq hpos (by omega) (by omega)]

theorem roundSignificandInWords?_eq (f : CompactFormat) (hlt : significand < 2 ^ 23) :
    f.roundSignificandInWords? significand = some (f.roundSignificand significand) := by
  obtain ⟨-, -, hbits⟩ := f.width_eq
  have hplaces : unsigned? (23 - f.significandBits) = some (23 - f.significandBits) :=
    unsigned?_eq (by omega) (by omega)
  have hhalf : 2 ^ (23 - f.significandBits - 1) ≤ 2 ^ 22 :=
    Nat.pow_le_pow_right Nat.two_pos (by omega)
  rw [roundSignificandInWords?, bind_of_eq_some hplaces,
    bind_of_eq_some (roundShiftInWords?_eq (by omega) (by omega) (by omega)),
    bind_of_eq_some f.maxSignificandInWords?_eq, roundSignificand, Nat.min_comm, Nat.min_def]
  rfl

/-- **The bits below the sign are encoded** with no operation going wrong, in all three ranges of
exponents. -/
theorem encodeMagnitudeInWords?_eq (f : CompactFormat) (hexponent : exponent ≤ 255)
    (hlt : significand < 2 ^ 23) :
    f.encodeMagnitudeInWords? exponent significand =
      some (f.encodeMagnitude exponent significand) := by
  obtain ⟨-, -, hbits⟩ := f.width_eq
  have hdouble := f.two_mul_bias
  have hbias := f.bias_lt
  have hrounded := f.roundSignificand_lt significand
  have hsigned : signed? exponent = some (exponent : ℤ) := signed?_eq (by omega) (by omega)
  have hunbiased : signed? (exponent - 127) = some ((exponent : ℤ) - 127) :=
    signed?_eq (by omega) (by omega)
  have hlow : signed? (-f.bias) = some (-(f.bias : ℤ)) := signed?_eq (by omega) (by omega)
  rw [encodeMagnitudeInWords?, bind_of_eq_some (f.roundSignificandInWords?_eq hlt),
    bind_of_eq_some f.biasInWords?_eq, bind_of_eq_some hsigned, bind_of_eq_some hunbiased,
    bind_of_eq_some hlow]
  -- Below the range of the format, in it, and above it.
  rcases f.exponent_cases exponent with ⟨places, hpos, hplaces⟩ | ⟨field, hpos, hle, hfield⟩ | hhigh
  · have hbelow : signed? (-f.bias - (exponent - 127)) = some ((places : ℤ) - 1) := by
      have hdistance : -(f.bias : ℤ) - (exponent - 127) = places - 1 := by omega
      rw [hdistance]
      exact signed?_eq (by omega) (by omega)
    have hsum : signed? (1 + ((places : ℤ) - 1)) = some (places : ℤ) := by
      rw [signed?_eq (by omega) (by omega), add_sub_cancel]
    have hword : unsigned? places = some places := unsigned?_eq rfl (by omega)
    rw [if_pos (by omega), bind_of_eq_some hlow, bind_of_eq_some hbelow, bind_of_eq_some hsum,
      bind_of_eq_some hword, bind_of_eq_some (shiftUp?_one (by omega)),
      encodeMagnitude_of_places significand hplaces hpos]
    split
    · rfl
    · rename_i hshort
      exact roundShiftInWords?_implied hrounded hpos (Nat.lt_of_not_le hshort)
  · have hsum : signed? (exponent - 127 + f.bias) = some (field : ℤ) := by
      rw [signed?_eq (by omega) (by omega), hfield]
    have hword : unsigned? field = some field := unsigned?_eq rfl (by omega)
    rw [if_neg (by omega), if_neg (by omega), bind_of_eq_some hsum, bind_of_eq_some hword,
      joinInWords?_eq (by omega) hrounded, encodeMagnitude_of_field significand hfield hpos hle]
  · rw [if_neg (by omega), if_pos (by omega), maxPatternInWords?_eq,
      encodeMagnitude_of_lt significand hhigh]

/-- **A 32-bit pattern is encoded** with no operation going wrong, whatever it is. -/
theorem encodeInWords?_eq (f : CompactFormat) (x : Binary32) :
    f.encodeInWords? x.bits.toNat = some (f.encode x) := by
  obtain ⟨hbits, -⟩ := f.width_le
  have hword : x.bits.toNat < 2 ^ 32 := x.bits.toNat_lt
  have hsign : shiftDown? x.bits.toNat 31 = some x.negative.toNat := by
    rw [shiftDown?_eq (by decide), Binary32.negative, Nat.toNat_testBit,
      Nat.mod_eq_of_lt (by omega)]
  have hexponent : x.bits.toNat / 2 ^ 23 &&& 0xFF = x.exponent :=
    Nat.and_two_pow_sub_one_eq_mod _ 8
  have hsignificand : x.bits.toNat &&& 0x7FFFFF = x.significand :=
    Nat.and_two_pow_sub_one_eq_mod _ 23
  have hroom := f.two_pow_signPlace_le
  have hfield : shiftUp? x.negative.toNat (f.width.bits - 1) =
      some (x.negative.toNat * 2 ^ (f.width.bits - 1)) := by
    have hone := Nat.mul_le_mul_right (2 ^ (f.width.bits - 1)) (Bool.toNat_le x.negative)
    exact shiftUp?_eq (by omega) (by omega)
  rw [encodeInWords?, bind_of_eq_some hsign, bind_of_eq_some (shiftDown?_eq (by decide)), hexponent,
    hsignificand, bind_of_eq_some f.signPlace_eq, bind_of_eq_some hfield, encode_eq, encodeLow]
  split
  · rfl
  · have hlow : f.encodeMagnitude x.exponent x.significand < 2 ^ (f.width.bits - 1) :=
      Nat.lt_of_le_of_lt (f.encodeMagnitude_le_maxPattern _ _) f.maxPattern_lt
    rw [bind_of_eq_some (f.encodeMagnitudeInWords?_eq x.exponent_le x.significand_lt), Nat.or_comm,
      or_eq_add hlow]
    rfl

/-! ### Decoding goes through -/

section Joined

variable (hlt : significand < 2 ^ f.significandBits)
include hlt

/-- What stands above the significand field is the exponent field. -/
theorem and_joined_high (hexponent : exponent < 2 ^ f.exponentBits) :
    (exponent * 2 ^ f.significandBits + significand) / 2 ^ f.significandBits &&&
      2 ^ f.exponentBits - 1 = exponent := by
  rw [Nat.add_comm, Nat.add_mul_div_right _ _ (Nat.two_pow_pos _), Nat.div_eq_of_lt hlt,
    Nat.zero_add, Nat.and_two_pow_sub_one_eq_mod, Nat.mod_eq_of_lt hexponent]

/-- What stands below the exponent field is the significand field. -/
theorem and_joined_low :
    exponent * 2 ^ f.significandBits + significand &&& f.maxSignificand = significand := by
  rw [maxSignificand, Nat.and_two_pow_sub_one_eq_mod, Nat.mul_add_mod_self_right,
    Nat.mod_eq_of_lt hlt]

end Joined

/-- Joined fields are zero if both are. -/
theorem joined_eq_zero_iff :
    exponent * 2 ^ f.significandBits + significand = 0 ↔ exponent = 0 ∧ significand = 0 := by
  rw [Nat.add_eq_zero_iff, Nat.mul_eq_zero, or_iff_left (Nat.two_pow_pos _).ne']

/-- A leading one is brought into place from an exponent field and a significand field that are not
both zero, and the exponent stays far from the ends of a word. -/
theorem normalize_bounds (hne : ¬(exponent = 0 ∧ significand = 0))
    (hexponent : exponent < 2 ^ f.exponentBits) (hlt : significand < 2 ^ f.significandBits)
    {leading : ℤ} {behind : ℕ} (h : f.normalize exponent significand = (leading, behind)) :
    -2 ^ 19 ≤ leading ∧ leading < 2 ^ 19 ∧ behind < 2 ^ f.significandBits := by
  obtain ⟨-, -, hbits⟩ := f.width_eq
  obtain ⟨-, hpower, -⟩ := f.two_pow_le
  have hbias := f.bias_lt
  obtain ⟨leading', behind', h', hbehind, -⟩ := exists_normalize_eq hne hlt
  obtain ⟨rfl, rfl⟩ := Prod.mk.inj (h.symm.trans h')
  by_cases hzero : exponent = 0
  · rw [normalize, if_pos hzero] at h
    obtain ⟨rfl, -⟩ := Prod.mk.inj h
    exact ⟨by omega, by omega, hbehind⟩
  · rw [normalize, if_neg hzero] at h
    obtain ⟨rfl, -⟩ := Prod.mk.inj h
    exact ⟨by omega, by omega, hbehind⟩

theorem normalizeInWords?_eq (f : CompactFormat) (hne : ¬(exponent = 0 ∧ significand = 0))
    (hexponent : exponent < 2 ^ f.exponentBits) (hlt : significand < 2 ^ f.significandBits) :
    f.normalizeInWords? exponent significand = some (f.normalize exponent significand) := by
  obtain ⟨-, -, hbits⟩ := f.width_eq
  obtain ⟨-, hpower, -⟩ := f.two_pow_le
  have hbias := f.bias_lt
  rw [normalizeInWords?, bind_of_eq_some f.biasInWords?_eq]
  by_cases hzero : exponent = 0
  · subst hzero
    have hsignificand : significand ≠ 0 := fun hsignificand => hne ⟨rfl, hsignificand⟩
    obtain ⟨leading, shifted, hshifts, hnormalize⟩ := f.exists_shiftsUp hsignificand hlt
    obtain ⟨hlow, -, -⟩ := normalize_bounds hne hexponent hlt hnormalize
    have hstart : signed? (1 - f.bias) = some (1 - (f.bias : ℤ)) :=
      signed?_eq (by omega) (by omega)
    have hloop := leadingOne?_eq_of_shiftsUp (by omega) hshifts (by omega) (by omega)
    rw [if_pos rfl, bind_of_eq_some hstart, bind_of_eq_some hloop, hnormalize]
    dsimp only
    rw [bind_of_eq_some f.maxSignificandInWords?_eq, maxSignificand,
      Nat.and_two_pow_sub_one_eq_mod]
    rfl
  · have hsigned : signed? exponent = some (exponent : ℤ) := signed?_eq (by omega) (by omega)
    have hresult : signed? (exponent - f.bias) = some ((exponent : ℤ) - f.bias) :=
      signed?_eq (by omega) (by omega)
    rw [if_neg hzero, bind_of_eq_some hsigned, bind_of_eq_some hresult, normalize, if_neg hzero]
    rfl

/-- The three fields of a 32-bit pattern, each in its place, are joined without a loss. -/
theorem ofFields_eq_or (negative : Bool) {field behind : ℕ} (hfield : field < 2 ^ 8)
    (hbehind : behind < 2 ^ 23) :
    (⟨UInt32.ofNat (negative.toNat * 2 ^ 31 ||| field * 2 ^ 23 ||| behind)⟩ : Binary32) =
      .ofFields negative field behind := by
  have hhigh : negative.toNat * 2 ^ 31 ||| field * 2 ^ 23 =
      (negative.toNat * 2 ^ 8 + field) * 2 ^ 23 := by
    rw [or_eq_add (by omega), Nat.add_mul, Nat.mul_assoc]
  rw [hhigh, or_eq_add hbehind, Nat.add_mul, Nat.mul_assoc]
  rfl

/-- **A leading one and the bits after it** are put into the wider format with no operation going
wrong. -/
theorem widenInWords?_eq (f : CompactFormat) (negative : Bool) {leading : ℤ} {behind : ℕ}
    (hle : -2 ^ 19 ≤ leading) (hlt : leading < 2 ^ 19) (hbehind : behind < 2 ^ f.significandBits) :
    f.widenInWords? negative.toNat leading behind =
      some (if 127 < leading then .ofFields negative 255 0
        else if leading < -126 then .ofFields negative 0 0
        else .ofFields negative (leading + 127).toNat (behind * 2 ^ (23 - f.significandBits))) := by
  obtain ⟨-, -, hbits⟩ := f.width_eq
  have hone := Bool.toNat_le negative
  have hwide := f.mul_lt_of_lt hbehind
  have hrebiased : signed? (leading + 127) = some (leading + 127) :=
    signed?_eq (by omega) (by omega)
  rw [widenInWords?, bind_of_eq_some hrebiased, Bool.toNat_bne_zero]
  by_cases hhigh : 127 < leading
  · rw [if_pos (by omega), if_pos hhigh]
    rfl
  by_cases hlow : leading < -126
  · rw [if_neg (by omega), if_neg hhigh, if_pos (by omega), if_pos hlow]
    rfl
  · have hsign : shiftUp? negative.toNat 31 = some (negative.toNat * 2 ^ 31) :=
      shiftUp?_eq (by decide) (by omega)
    have hword : unsigned? (leading + 127) = some (leading + 127).toNat :=
      unsigned?_eq (by omega) (by omega)
    have hfield : shiftUp? (leading + 127).toNat 23 = some ((leading + 127).toNat * 2 ^ 23) :=
      shiftUp?_eq (by decide) (by omega)
    have hplaces : unsigned? (23 - f.significandBits) = some (23 - f.significandBits) :=
      unsigned?_eq (by omega) (by omega)
    have hshifted : shiftUp? behind (23 - f.significandBits) =
        some (behind * 2 ^ (23 - f.significandBits)) := shiftUp?_eq (by omega) (by omega)
    rw [if_neg (by omega), if_neg hhigh, if_neg (by omega), if_neg hlow, bind_of_eq_some hsign,
      bind_of_eq_some hword, bind_of_eq_some hfield, bind_of_eq_some hplaces,
      bind_of_eq_some hshifted, ofFields_eq_or negative (by omega) hwide]
    rfl

/-- **A compact pattern is decoded** with no operation going wrong, whatever word it is in. -/
theorem decodeInWords?_eq (f : CompactFormat) (pattern : ℕ) :
    f.decodeInWords? pattern = some (f.decode pattern) := by
  obtain ⟨hwidth, -, hbits⟩ := f.width_eq
  obtain ⟨hle, hleast⟩ := f.width_le
  obtain ⟨-, hpower, -⟩ := f.two_pow_le
  have hsignificand := f.patternSignificand_lt pattern
  have hexponent : f.patternExponent pattern < 2 ^ f.exponentBits :=
    Nat.mod_lt _ (Nat.two_pow_pos _)
  -- The sign bit and the bits below it.
  have hsign : pattern / 2 ^ (f.width.bits - 1) &&& 1 = (f.patternNegative pattern).toNat := by
    rw [Nat.and_one_is_mod, patternNegative, Nat.toNat_testBit]
  have hroom := f.two_pow_signPlace_le
  have hbelow : unsigned? ((2 ^ (f.width.bits - 1) : ℕ) - 1) = some (2 ^ (f.width.bits - 1) - 1) :=
    unsigned?_eq (Nat.cast_pred (Nat.two_pow_pos _)).symm (by omega)
  have hmagnitude : pattern &&& 2 ^ (f.width.bits - 1) - 1 =
      f.patternExponent pattern * 2 ^ f.significandBits + f.patternSignificand pattern := by
    rw [Nat.and_two_pow_sub_one_eq_mod, joined_fields]
  rw [decodeInWords?, bind_of_eq_some f.signPlace_eq,
    bind_of_eq_some (shiftDown?_eq (by omega)), hsign]
  dsimp only
  rw [bind_of_eq_some (shiftUp?_one (by omega)), bind_of_eq_some hbelow, hmagnitude]
  by_cases hzero : f.IsZero pattern
  · rw [if_pos (joined_eq_zero_iff.2 hzero), decode_of_isZero hzero, Bool.toNat_bne_zero]
    rfl
  · have hgreatest : unsigned? ((2 ^ f.exponentBits : ℕ) - 1) = some (2 ^ f.exponentBits - 1) :=
      unsigned?_eq (Nat.cast_pred (Nat.two_pow_pos _)).symm (by omega)
    obtain ⟨leading, behind, hnormalize, hbehind, -⟩ := exists_normalize_eq hzero hsignificand
    obtain ⟨hge, hlt, -⟩ := normalize_bounds hzero hexponent hsignificand hnormalize
    have hresult := f.normalizeInWords?_eq hzero hexponent hsignificand
    rw [hnormalize] at hresult
    rw [if_neg fun hnone => hzero (joined_eq_zero_iff.1 hnone),
      bind_of_eq_some f.exponentBitsInWords?_eq, bind_of_eq_some (shiftUp?_one (by omega)),
      bind_of_eq_some hgreatest, bind_of_eq_some (shiftDown?_eq (by omega)),
      and_joined_high hsignificand hexponent, bind_of_eq_some f.maxSignificandInWords?_eq,
      and_joined_low hsignificand, bind_of_eq_some hresult, decode_of_normalize hzero hnormalize,
      widenInWords?_eq f _ hge hlt hbehind]

/-- **Whatever is encoded, nothing goes wrong.** For every 32-bit pattern, also for those of NaNs,
infinities and numbers without an implied one, encoding in words goes through: no shift is too wide,
and no sum or difference is lost. The result has the bits of the format, the sign bit of the pattern
and an exponent field that is not all ones; decoding it in words goes through as well, and does not
give a NaN. -/
theorem encode_inWords (f : CompactFormat) (x : Binary32) :
    f.encodeInWords? x.bits.toNat = some (f.encode x) ∧
      f.encode x < 2 ^ f.width.bits ∧
      (f.encode x).testBit (f.width.bits - 1) = x.bits.toNat.testBit 31 ∧
      f.patternExponent (f.encode x) ≠ 2 ^ f.exponentBits - 1 ∧
      f.decodeInWords? (f.encode x) = some (f.decode (f.encode x)) ∧
      (f.decode (f.encode x)).value ≠ .nan :=
  ⟨f.encodeInWords?_eq x, f.encode_lt x, f.patternNegative_encode x,
    (f.patternExponent_encode_lt x).ne, f.decodeInWords?_eq _,
    (f.isNumber_decode _).value_ne_nan⟩

/-- With more exponent bits than a 32-bit pattern has, a NaN is encoded like a number. -/
example : encodeInWords? ⟨.bits24, 4, by decide, by decide⟩ 0xFFC00000 = some 0xC007F8 := by
  decide +kernel

end CompactFormat

end WireCodec
