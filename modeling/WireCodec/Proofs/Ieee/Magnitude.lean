import Mathlib.Algebra.Order.Field.Power
import Mathlib.Algebra.Order.Field.Rat
import Mathlib.Order.WithBot
import Mathlib.Tactic.FieldSimp
import Mathlib.Tactic.Linarith
import Mathlib.Tactic.Positivity
import Mathlib.Tactic.Ring
import WireCodec.Ieee

/-!
# Patterns as exact numbers

What a floating point pattern is worth, as a rational number, and how worth and bits are ordered.

* `WireCodec.fieldsMagnitude` is the magnitude that an exponent field and a significand field stand
  for, in any format. Without an implied one it is smaller than with it, and with it each exponent
  has magnitudes of its own, so that magnitudes are ordered like the fields read as one number
  (`WireCodec.fieldsMagnitude_le_iff`).
* A finite value is a rational number (`WireCodec.FloatValue.toRat?`). All values but the NaNs have
  a place among the rational numbers with an infinity at each end, and this is how they are compared
  (`WireCodec.FloatValue.extended?`).
* A comparison of two 32-bit patterns is one of their signs and bits
  (`WireCodec.Binary32.value_le_iff`).
-/

namespace WireCodec

/-! ### Magnitudes of fields -/

/-- **The exact magnitude of an exponent field and a significand field**, where exponents are biased
by `bias` and there are `bits` significand bits: no implied one where the exponent field is zero,
and nothing special about an exponent field of all ones. -/
def fieldsMagnitude (bias bits exponent significand : ℕ) : ℚ :=
  if exponent = 0 then significand * 2 ^ (1 - (bias : ℤ) - bits)
  else (1 + significand / 2 ^ bits) * 2 ^ ((exponent : ℤ) - bias)

section Magnitude

variable {bias bits exponent significand exponent' significand' : ℕ}

/-- With an implied one, in units of the last significand bit. -/
theorem fieldsMagnitude_of_ne_zero (h : exponent ≠ 0) :
    fieldsMagnitude bias bits exponent significand =
      (2 ^ bits + significand : ℕ) * 2 ^ ((exponent : ℤ) - bias - bits) := by
  have hbits : (2 : ℚ) ^ bits ≠ 0 := by positivity
  rw [fieldsMagnitude, if_neg h, zpow_sub₀ two_ne_zero (_ - _ : ℤ) (bits : ℤ), zpow_natCast]
  push_cast
  field_simp

theorem fieldsMagnitude_nonneg : 0 ≤ fieldsMagnitude bias bits exponent significand := by
  unfold fieldsMagnitude
  split <;> positivity

/-- A leading one with bits behind it lies between two powers. -/
theorem leading_bounds (leading : ℤ) (hlt : significand < 2 ^ bits) :
    (2 : ℚ) ^ leading ≤ (1 + significand / 2 ^ bits) * 2 ^ leading ∧
      (1 + significand / 2 ^ bits) * (2 : ℚ) ^ leading < 2 ^ (leading + 1) := by
  have hpow : (0 : ℚ) < 2 ^ leading := by positivity
  have hfraction : (significand : ℚ) / 2 ^ bits < 1 := by
    rw [div_lt_one (by positivity)]
    exact_mod_cast hlt
  have hnonneg : (0 : ℚ) ≤ significand / 2 ^ bits := by positivity
  rw [zpow_add_one₀ two_ne_zero]
  constructor <;> nlinarith

/-- The magnitude of a number with an implied one lies between two powers. -/
theorem fieldsMagnitude_bounds (bias : ℕ) (h : exponent ≠ 0) (hlt : significand < 2 ^ bits) :
    2 ^ ((exponent : ℤ) - bias) ≤ fieldsMagnitude bias bits exponent significand ∧
      fieldsMagnitude bias bits exponent significand < 2 ^ ((exponent : ℤ) - bias + 1) := by
  rw [fieldsMagnitude, if_neg h]
  exact leading_bounds _ hlt

/-- Without an implied one the magnitude is smaller than any with it. -/
theorem fieldsMagnitude_zero_lt (bias : ℕ) (hlt : significand < 2 ^ bits) :
    fieldsMagnitude bias bits 0 significand < 2 ^ (1 - (bias : ℤ)) := by
  have hsignificand : (significand : ℚ) < 2 ^ bits := by exact_mod_cast hlt
  rw [fieldsMagnitude, if_pos rfl, zpow_sub₀ two_ne_zero (_ - _ : ℤ) (bits : ℤ), zpow_natCast,
    ← mul_div_assoc, div_lt_iff₀ (by positivity), mul_comm]
  gcongr

/-- Any magnitude is below a power. -/
theorem fieldsMagnitude_lt_two_zpow (bias exponent : ℕ) (hlt : significand < 2 ^ bits) :
    fieldsMagnitude bias bits exponent significand < 2 ^ ((exponent : ℤ) - bias + 1) := by
  by_cases h : exponent = 0
  · have hexponent : (exponent : ℤ) - bias + 1 = 1 - bias := by omega
    rw [hexponent, h]
    exact fieldsMagnitude_zero_lt bias hlt
  · exact (fieldsMagnitude_bounds bias h hlt).2

/-- A magnitude that is not below a power has an exponent that is not. -/
theorem lt_of_two_zpow_le {power : ℤ} (hlt : significand < 2 ^ bits)
    (h : 2 ^ power ≤ fieldsMagnitude bias bits exponent significand) :
    power < (exponent : ℤ) - bias + 1 :=
  (zpow_lt_zpow_iff_right₀ one_lt_two).mp (h.trans_lt (fieldsMagnitude_lt_two_zpow bias _ hlt))

/-- A magnitude below a power has an exponent below it. -/
theorem lt_of_lt_two_zpow {power : ℤ} (hne : exponent ≠ 0) (hlt : significand < 2 ^ bits)
    (h : fieldsMagnitude bias bits exponent significand < 2 ^ power) :
    (exponent : ℤ) - bias < power :=
  (zpow_lt_zpow_iff_right₀ one_lt_two).mp ((fieldsMagnitude_bounds bias hne hlt).1.trans_lt h)

/-- Fields read as one number are compared from the exponent on. -/
theorem exponent_le_of_joined_le (hlt' : significand' < 2 ^ bits)
    (h : exponent * 2 ^ bits + significand ≤ exponent' * 2 ^ bits + significand') :
    exponent ≤ exponent' := by
  by_contra hgt
  have hmul : (exponent' + 1) * 2 ^ bits ≤ exponent * 2 ^ bits :=
    Nat.mul_le_mul_right _ (not_le.mp hgt)
  rw [Nat.add_mul] at hmul
  omega

/-- A greater number in the fields is a greater magnitude. -/
theorem fieldsMagnitude_lt (hlt : significand < 2 ^ bits)
    (hlt' : significand' < 2 ^ bits)
    (h : exponent * 2 ^ bits + significand < exponent' * 2 ^ bits + significand') :
    fieldsMagnitude bias bits exponent significand <
      fieldsMagnitude bias bits exponent' significand' := by
  rcases (exponent_le_of_joined_le hlt' h.le).lt_or_eq with hexponent | rfl
  · refine lt_of_lt_of_le ?_ (fieldsMagnitude_bounds bias (Nat.ne_zero_of_lt hexponent) hlt').1
    by_cases hzero : exponent = 0
    · subst hzero
      refine lt_of_lt_of_le (fieldsMagnitude_zero_lt bias hlt) ?_
      exact zpow_le_zpow_right₀ one_le_two (by omega)
    · refine lt_of_lt_of_le (fieldsMagnitude_bounds bias hzero hlt).2 ?_
      exact zpow_le_zpow_right₀ one_le_two (by omega)
  · have hsignificand : significand < significand' := by omega
    unfold fieldsMagnitude
    split <;> gcongr

/-- **Magnitudes are ordered like their fields**, read as one number. -/
theorem fieldsMagnitude_le_iff (hlt : significand < 2 ^ bits)
    (hlt' : significand' < 2 ^ bits) :
    fieldsMagnitude bias bits exponent significand ≤
        fieldsMagnitude bias bits exponent' significand' ↔
      exponent * 2 ^ bits + significand ≤ exponent' * 2 ^ bits + significand' := by
  constructor
  · intro hle
    by_contra hgt
    exact absurd hle (not_le.mpr (fieldsMagnitude_lt hlt' hlt (not_le.mp hgt)))
  · intro hle
    rcases Nat.lt_or_eq_of_le hle with hjoined | hjoined
    · exact (fieldsMagnitude_lt hlt hlt' hjoined).le
    · have hexponent : exponent = exponent' :=
        le_antisymm (exponent_le_of_joined_le hlt' hle) (exponent_le_of_joined_le hlt hjoined.ge)
      have hsignificand : significand = significand' := by
        rw [hexponent] at hjoined
        omega
      rw [hexponent, hsignificand]

end Magnitude

/-! ### The numbers that values are -/

namespace FloatValue

/-- The number with the given sign and magnitude. -/
def signed (negative : Bool) (magnitude : ℚ) : ℚ :=
  if negative then -magnitude else magnitude

/-- **The number that a finite value is.** Infinities and NaNs are none. -/
def toRat? : FloatValue → Option ℚ
  | nan => none
  | infinite _ => none
  | finite negative mantissa exponent => some (signed negative (mantissa * 2 ^ exponent))

/-- **The place of a value among the numbers**, with an infinity at each end. A NaN has none. -/
def extended? : FloatValue → Option (WithBot (WithTop ℚ))
  | nan => none
  | infinite negative => some (if negative then ⊥ else ⊤)
  | finite negative mantissa exponent =>
      some ((signed negative (mantissa * 2 ^ exponent) : ℚ) : WithTop ℚ)

/-- **Values are compared as numbers.** A NaN is not comparable with anything, and zeros of
different signs are equal. -/
instance : LE FloatValue where
  le v w := ∃ a ∈ v.extended?, ∃ b ∈ w.extended?, a ≤ b

/-- The value with the given sign instead of its own. -/
def withSign (negative : Bool) : FloatValue → FloatValue
  | nan => nan
  | infinite _ => infinite negative
  | finite _ mantissa exponent => finite negative mantissa exponent

/-- The value without its sign. -/
def abs (v : FloatValue) : FloatValue :=
  v.withSign false

variable {negative : Bool} {q : ℚ}

theorem signed_zero (negative : Bool) : signed negative 0 = 0 := by
  cases negative <;> rfl

theorem abs_signed (h : 0 ≤ q) : |signed negative q| = q := by
  unfold signed
  split
  · rw [abs_neg, abs_of_nonneg h]
  · exact abs_of_nonneg h

/-- Numbers of the same sign are as far apart as their magnitudes. -/
theorem abs_signed_sub (p q : ℚ) : |signed negative p - signed negative q| = |p - q| := by
  unfold signed
  split
  · rw [← neg_sub', abs_neg]
  · rfl

/-- The place of a sign and a magnitude that may be infinite. -/
def extend (negative : Bool) : WithTop ℚ → WithBot (WithTop ℚ)
  | ⊤ => if negative then ⊥ else ⊤
  | (q : ℚ) => (signed negative q : WithTop ℚ)

/-- **Comparison by sign and magnitude**: by the magnitudes, which are turned around below zero, and
across zero by the signs, unless both magnitudes are zero. -/
def SignedLe {α : Type} [LE α] [Zero α] (negative negative' : Bool) (a b : α) : Prop :=
  match negative, negative' with
  | false, false => a ≤ b
  | true, true => b ≤ a
  | true, false => True
  | false, true => a = 0 ∧ b = 0

/-- A comparison goes over to other magnitudes that are in the same order. -/
theorem SignedLe.imp {α β : Type} [LE α] [Zero α] [LE β] [Zero β] {negative negative' : Bool}
    {a b : α} {c d : β} (h : SignedLe negative negative' a b) (hle : a ≤ b → c ≤ d)
    (hge : b ≤ a → d ≤ c) (hleft : a = 0 → c = 0) (hright : b = 0 → d = 0) :
    SignedLe negative negative' c d := by
  cases negative <;> cases negative'
  · exact hle h
  · exact ⟨hleft h.1, hright h.2⟩
  · trivial
  · exact hge h

/-- **Places are compared by sign and magnitude.** -/
theorem extend_le_extend_iff {negative negative' : Bool} {a b : WithTop ℚ} (ha : 0 ≤ a)
    (hb : 0 ≤ b) :
    extend negative a ≤ extend negative' b ↔ SignedLe negative negative' a b := by
  induction a with
  | top =>
    induction b with
    | top => cases negative <;> cases negative' <;> simp [extend, SignedLe]
    | coe q => cases negative <;> cases negative' <;> simp [extend, signed, SignedLe]
  | coe p =>
    induction b with
    | top => cases negative <;> cases negative' <;> simp [extend, signed, SignedLe]
    | coe q =>
      have hp : 0 ≤ p := by exact_mod_cast ha
      have hq : 0 ≤ q := by exact_mod_cast hb
      cases negative <;> cases negative' <;>
        simp only [extend, signed, SignedLe, WithBot.coe_le_coe, WithTop.coe_le_coe,
          WithTop.coe_eq_zero, Bool.false_eq_true, if_false, if_true, iff_true]
      · constructor
        · intro h
          constructor <;> linarith
        · rintro ⟨rfl, rfl⟩
          simp
      · linarith
      · exact neg_le_neg_iff

end FloatValue

namespace Binary32

variable {x y : Binary32} {negative negative' : Bool}

/-- An exponent field of all ones marks the infinities and the NaNs. -/
theorem value_of_exponent_eq (h : x.exponent = 255) :
    x.value = if x.significand = 0 then .infinite x.negative else .nan := by
  rw [value, FloatValue.ofFields, if_pos h]

/-- **With any other exponent field the value is finite**, and its magnitude is that of its
fields. -/
theorem value_of_exponent_ne (h : x.exponent ≠ 255) : ∃ mantissa exponent,
    x.value = .finite x.negative mantissa exponent ∧
      (mantissa : ℚ) * 2 ^ exponent = fieldsMagnitude 127 23 x.exponent x.significand := by
  by_cases hzero : x.exponent = 0
  · refine ⟨_, _, by rw [value, FloatValue.ofFields, if_neg h, if_pos hzero], ?_⟩
    rw [hzero, fieldsMagnitude, if_pos rfl]
    norm_num
  · refine ⟨_, _, by rw [value, FloatValue.ofFields, if_neg h, if_neg hzero], ?_⟩
    rw [fieldsMagnitude_of_ne_zero hzero]
    congr 2
    push_cast
    ring

/-- The number of a finite value, by its fields. -/
theorem toRat?_value (h : x.exponent ≠ 255) : x.value.toRat? =
    some (FloatValue.signed x.negative (fieldsMagnitude 127 23 x.exponent x.significand)) := by
  obtain ⟨mantissa, exponent, hvalue, hmagnitude⟩ := value_of_exponent_ne h
  rw [hvalue, FloatValue.toRat?, hmagnitude]

/-- Only finite values are numbers. -/
theorem exponent_ne_of_toRat? {q : ℚ} (h : x.value.toRat? = some q) : x.exponent ≠ 255 := by
  intro hexponent
  rw [value_of_exponent_eq hexponent] at h
  split at h <;> cases h

/-- A number is the sign and the magnitude of its fields. -/
theorem eq_signed_of_toRat? {q : ℚ} (h : x.value.toRat? = some q) :
    q = FloatValue.signed x.negative (fieldsMagnitude 127 23 x.exponent x.significand) := by
  rw [toRat?_value (exponent_ne_of_toRat? h)] at h
  exact (Option.some_inj.mp h).symm

theorem abs_eq_of_toRat? {q : ℚ} (h : x.value.toRat? = some q) :
    |q| = fieldsMagnitude 127 23 x.exponent x.significand := by
  rw [eq_signed_of_toRat? h, FloatValue.abs_signed fieldsMagnitude_nonneg]

/-- Only an exponent field of all ones is that of an infinity. -/
theorem exponent_eq_of_infinite (h : x.value = .infinite negative) : x.exponent = 255 := by
  by_contra hexponent
  obtain ⟨mantissa, exponent, hvalue, -⟩ := value_of_exponent_ne hexponent
  rw [hvalue] at h
  cases h

/-! ### Order -/

/-- The bits below the sign: the fields, read as one number. -/
def low (x : Binary32) : ℕ :=
  x.exponent * 2 ^ 23 + x.significand

/-- **The pattern is no NaN.** -/
def IsNumber (x : Binary32) : Prop :=
  x.exponent = 255 → x.significand = 0

instance (x : Binary32) : Decidable x.IsNumber :=
  inferInstanceAs (Decidable (_ → _))

theorem IsNumber.value_ne_nan (h : x.IsNumber) : x.value ≠ .nan := by
  by_cases hexponent : x.exponent = 255
  · rw [value_of_exponent_eq hexponent, if_pos (h hexponent)]
    rintro ⟨⟩
  · obtain ⟨mantissa, exponent, hvalue, -⟩ := value_of_exponent_ne hexponent
    rw [hvalue]
    rintro ⟨⟩

/-- The magnitude of a pattern that is no NaN. -/
def magnitude (x : Binary32) : WithTop ℚ :=
  if x.exponent = 255 then ⊤ else (fieldsMagnitude 127 23 x.exponent x.significand : ℚ)

theorem magnitude_nonneg (x : Binary32) : 0 ≤ x.magnitude := by
  unfold magnitude
  split
  · exact le_top
  · exact_mod_cast fieldsMagnitude_nonneg

theorem significand_lt (x : Binary32) : x.significand < 2 ^ 23 :=
  Nat.mod_lt _ (by decide)

theorem exponent_le (x : Binary32) : x.exponent ≤ 255 :=
  Nat.le_of_lt_succ (Nat.mod_lt _ (by decide))

/-- No number has more bits below the sign than an infinity. -/
theorem IsNumber.low_le (h : x.IsNumber) : x.low ≤ 255 * 2 ^ 23 := by
  have hexponent := x.exponent_le
  have hsignificand := x.significand_lt
  unfold IsNumber at h
  unfold low
  omega

/-- **Magnitudes are ordered like the bits below the sign.** -/
theorem magnitude_le_iff (hx : x.IsNumber) (hy : y.IsNumber) :
    x.magnitude ≤ y.magnitude ↔ x.low ≤ y.low := by
  have hxlt := x.significand_lt
  have hylt := y.significand_lt
  have hxle := x.exponent_le
  have hyle := y.exponent_le
  unfold magnitude low
  by_cases hxtop : x.exponent = 255
  · have := hx hxtop
    by_cases hytop : y.exponent = 255
    · have := hy hytop
      simp [*]
    · rw [if_pos hxtop, if_neg hytop]
      simp only [top_le_iff, WithTop.coe_ne_top, false_iff]
      omega
  · by_cases hytop : y.exponent = 255
    · rw [if_pos hytop]
      simp only [le_top, true_iff]
      omega
    · rw [if_neg hxtop, if_neg hytop, WithTop.coe_le_coe]
      exact fieldsMagnitude_le_iff hxlt hylt

/-- A zero magnitude has no bits below the sign. -/
theorem magnitude_eq_zero_iff (hx : x.IsNumber) : x.magnitude = 0 ↔ x.low = 0 := by
  have hzero : (⟨0⟩ : Binary32).magnitude = 0 := by
    simp [magnitude, exponent, significand, fieldsMagnitude]
  have hle := magnitude_le_iff hx (y := ⟨0⟩) (fun h => by simp [exponent] at h)
  rw [hzero, x.magnitude_nonneg.ge_iff_eq'] at hle
  exact hle.trans Nat.le_zero

/-- The sign bit is the sign of the value. -/
theorem withSign_value (x : Binary32) : x.value.withSign x.negative = x.value := by
  unfold value FloatValue.ofFields
  split
  · split <;> rfl
  · split <;> rfl

/-- **The place of a pattern among the numbers**, with any sign. A NaN has none. -/
theorem mem_extended?_withSign_iff {a : WithBot (WithTop ℚ)} :
    a ∈ (x.value.withSign negative).extended? ↔
      x.IsNumber ∧ a = FloatValue.extend negative x.magnitude := by
  have hplace : ∀ {v : FloatValue}, v.extended? = some (FloatValue.extend negative x.magnitude) →
      x.IsNumber → (a ∈ v.extended? ↔
        x.IsNumber ∧ a = FloatValue.extend negative x.magnitude) := by
    intro v hv hx
    rw [hv, Option.mem_some_iff, eq_comm, and_iff_right hx]
  by_cases hexponent : x.exponent = 255
  · rw [value_of_exponent_eq hexponent]
    by_cases hsignificand : x.significand = 0
    · rw [if_pos hsignificand]
      refine hplace ?_ fun _ => hsignificand
      rw [magnitude, if_pos hexponent]
      rfl
    · rw [if_neg hsignificand]
      constructor
      · rintro ⟨⟩
      · rintro ⟨hx, -⟩
        exact absurd (hx hexponent) hsignificand
  · obtain ⟨mantissa, exponent, hvalue, hmagnitude⟩ := value_of_exponent_ne hexponent
    rw [hvalue]
    refine hplace ?_ fun h => absurd h hexponent
    rw [magnitude, if_neg hexponent, ← hmagnitude]
    rfl

/-- **Values are ordered like signs and bits**, whatever their signs are. -/
theorem withSign_le_withSign_iff :
    x.value.withSign negative ≤ y.value.withSign negative' ↔
      x.IsNumber ∧ y.IsNumber ∧ FloatValue.SignedLe negative negative' x.low y.low := by
  constructor
  · rintro ⟨a, ha, b, hb, hle⟩
    obtain ⟨hx, rfl⟩ := mem_extended?_withSign_iff.mp ha
    obtain ⟨hy, rfl⟩ := mem_extended?_withSign_iff.mp hb
    rw [FloatValue.extend_le_extend_iff x.magnitude_nonneg y.magnitude_nonneg] at hle
    exact ⟨hx, hy, hle.imp (magnitude_le_iff hx hy).mp (magnitude_le_iff hy hx).mp
      (magnitude_eq_zero_iff hx).mp (magnitude_eq_zero_iff hy).mp⟩
  · rintro ⟨hx, hy, hle⟩
    refine ⟨_, mem_extended?_withSign_iff.mpr ⟨hx, rfl⟩, _,
      mem_extended?_withSign_iff.mpr ⟨hy, rfl⟩, ?_⟩
    rw [FloatValue.extend_le_extend_iff x.magnitude_nonneg y.magnitude_nonneg]
    exact hle.imp (magnitude_le_iff hx hy).mpr (magnitude_le_iff hy hx).mpr
      (magnitude_eq_zero_iff hx).mpr (magnitude_eq_zero_iff hy).mpr

/-- Values are ordered like their signs and bits. -/
theorem value_le_iff : x.value ≤ y.value ↔
    x.IsNumber ∧ y.IsNumber ∧ FloatValue.SignedLe x.negative y.negative x.low y.low := by
  rw [← withSign_le_withSign_iff, withSign_value, withSign_value]

/-- Without their signs, values are ordered like the bits below the sign. -/
theorem abs_value_le_iff :
    x.value.abs ≤ y.value.abs ↔ x.IsNumber ∧ y.IsNumber ∧ x.low ≤ y.low :=
  withSign_le_withSign_iff

end Binary32

end WireCodec
