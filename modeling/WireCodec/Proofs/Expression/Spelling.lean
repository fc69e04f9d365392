import Mathlib.Data.List.TakeWhile
import WireCodec.Proofs.Expression.Literal

/-!
# How literals are written

A literal is a hexadecimal or a decimal number, and `WireCodec.Literal.IsSpelled` says which texts
are written for it: hexadecimal digits behind `0x` or `0X`, or decimal digits with a point before,
among or behind them (`WireCodec.IsMantissa`) and a power of ten behind them, if any
(`WireCodec.IsPowerOfTen`).

The scanner of expressions reads these texts and no others. Where the text behind a literal is
closed, it finds the literal at its end (`WireCodec.Token.literal?_append`); and whatever it finds
is written as a literal is (`WireCodec.Token.exists_of_literal?`). The literal that it finds is the
longest one that the text starts with (`WireCodec.Token.length_le_of_literal?`).
-/

namespace WireCodec

open Token

/-- **Digits with a point**: the digits before the point and those behind it, and how they are
written. Without digits behind it there need not be a point. -/
inductive IsMantissa : (whole places text : List Char) → Prop
  /-- Digits without a point. -/
  | integer {whole : List Char} (hne : whole ≠ []) (h : ∀ d ∈ whole, d.isDigit = true) :
      IsMantissa whole [] whole
  /-- Digits with a point behind or among them. -/
  | point {whole places : List Char} (hne : whole ≠ []) (h : ∀ d ∈ whole, d.isDigit = true)
      (hplaces : ∀ d ∈ places, d.isDigit = true) :
      IsMantissa whole places (whole ++ '.' :: places)
  /-- Digits with a point before them. -/
  | fraction {places : List Char} (hne : places ≠ []) (h : ∀ d ∈ places, d.isDigit = true) :
      IsMantissa [] places ('.' :: places)

/-- **A power of ten**: the exponent and how it is written, or nothing for the exponent zero. -/
inductive IsPowerOfTen : (exponent : Int) → (text : List Char) → Prop
  /-- No exponent. -/
  | none : IsPowerOfTen 0 []
  /-- An exponent without a sign. -/
  | unsigned {mark : Char} {digits : List Char} (hmark : mark = 'e' ∨ mark = 'E')
      (hne : digits ≠ []) (h : ∀ d ∈ digits, d.isDigit = true) :
      IsPowerOfTen (digitsValue 10 digits) (mark :: digits)
  /-- An exponent with a `+`. -/
  | plus {mark : Char} {digits : List Char} (hmark : mark = 'e' ∨ mark = 'E')
      (hne : digits ≠ []) (h : ∀ d ∈ digits, d.isDigit = true) :
      IsPowerOfTen (digitsValue 10 digits) (mark :: '+' :: digits)
  /-- An exponent with a `-`. -/
  | minus {mark : Char} {digits : List Char} (hmark : mark = 'e' ∨ mark = 'E')
      (hne : digits ≠ []) (h : ∀ d ∈ digits, d.isDigit = true) :
      IsPowerOfTen (-digitsValue 10 digits) (mark :: '-' :: digits)

/-- **How literals are written.** -/
inductive Literal.IsSpelled : Literal → List Char → Prop
  /-- Hexadecimal digits behind `0x` or `0X`. -/
  | hexadecimal {mark : Char} {digits : List Char} (hmark : mark = 'x' ∨ mark = 'X')
      (hne : digits ≠ []) (h : ∀ d ∈ digits, isHexDigit d = true) :
      IsSpelled (.hexadecimal ('0' :: mark :: digits)) ('0' :: mark :: digits)
  /-- Decimal digits, possibly with a point, and possibly with a power of ten. -/
  | decimal {whole places mantissa power : List Char} {exponent : Int}
      (hmantissa : IsMantissa whole places mantissa) (hpower : IsPowerOfTen exponent power) :
      IsSpelled (.decimal ⟨digitsValue 10 (whole ++ places), exponent - places.length⟩)
        (mantissa ++ power)

namespace Token

variable {whole places mantissa power digits text rest w : List Char} {exponent : Int}
  {l : Literal} {p : Char → Bool}

/-! ### Reading what is written -/

/-- Characters of one kind end before a character of another kind. -/
theorem takeWhile_append_of_head (hw : ∀ c ∈ w, p c = true)
    (hrest : ∀ c ∈ rest.head?, p c = false) :
    (w ++ rest).takeWhile p = w ∧ (w ++ rest).dropWhile p = rest := by
  rw [List.takeWhile_append_of_pos hw, List.dropWhile_append_of_pos hw]
  cases rest with
  | nil => simp
  | cons c rest => simp [hrest c rfl]

theorem not_isDigit_of_isClosed (h : IsClosed rest) : ∀ c ∈ rest.head?, c.isDigit = false := by
  have hnone : closers.any Char.isDigit = false := by decide
  intro c hc
  simpa using List.any_eq_false.mp hnone c (h.mem_closers c hc)

theorem fraction_of_head {afterDigits : Bool} (h : ∀ c ∈ text.head?, c ≠ '.') :
    fraction afterDigits text = ([], text) := by
  unfold fraction
  split
  · exact absurd rfl (h '.' rfl)
  · rfl

/-- A power of ten starts with its mark, if with anything. -/
theorem head_of_isPowerOfTen (h : IsPowerOfTen exponent power) (hrest : IsClosed rest) :
    ∀ c ∈ (power ++ rest).head?, c.isDigit = false ∧ c ≠ '.' := by
  have hclosers : ∀ c ∈ rest.head?, c.isDigit = false ∧ c ≠ '.' := by
    intro c hc
    refine ⟨not_isDigit_of_isClosed hrest c hc, ?_⟩
    rintro rfl
    exact absurd (hrest.mem_closers '.' hc) (by decide)
  have hmarks : ∀ {mark : Char}, mark = 'e' ∨ mark = 'E' → mark.isDigit = false ∧ mark ≠ '.' := by
    rintro mark (rfl | rfl) <;> decide
  cases h with
  | none => exact hclosers
  | unsigned hmark | plus hmark | minus hmark =>
    intro c hc
    obtain rfl := Option.some.inj hc
    exact hmarks hmark

/-- Digits are not taken for a sign. -/
theorem exponentSign_of_isDigit (hne : digits ≠ []) (h : ∀ d ∈ digits, d.isDigit = true) :
    exponentSign (digits ++ rest) = (false, digits ++ rest) := by
  obtain ⟨d, tail, rfl⟩ := List.exists_cons_of_ne_nil hne
  have hd := h d List.mem_cons_self
  unfold exponentSign
  split
  · rename_i heq
    obtain rfl := (List.cons.inj heq).1
    exact absurd hd (by decide)
  · rename_i heq
    obtain rfl := (List.cons.inj heq).1
    exact absurd hd (by decide)
  · rfl

/-- A power of ten is read to its end. -/
theorem exponent_append (h : IsPowerOfTen exponent power) (hrest : IsClosed rest) :
    Token.exponent (power ++ rest) = (exponent, rest) := by
  cases h with
  | none =>
    unfold Token.exponent
    split
    · rename_i hnil
      rw [show rest = [] from hnil]
    · rename_i mark behind heq
      obtain rfl : rest = mark :: behind := heq
      have hmark := hrest.mem_closers mark rfl
      simp only
      rw [if_neg]
      rintro ⟨rfl | rfl, -⟩ <;> exact absurd hmark (by decide)
  | @unsigned mark digits hmark hne h =>
    obtain ⟨htake, hdrop⟩ := takeWhile_append_closed h (by decide) hrest
    simp [Token.exponent, exponentSign_of_isDigit hne h, htake, hdrop, hmark, hne]
  | @plus mark digits hmark hne h | @minus mark digits hmark hne h =>
    obtain ⟨htake, hdrop⟩ := takeWhile_append_closed h (by decide) hrest
    simp [Token.exponent, exponentSign, htake, hdrop, hmark, hne]

/-- What is not a mark of hexadecimal digits keeps a literal from being hexadecimal. -/
theorem hexLiteral?_of_forall (hne : w ≠ []) (hw : ∀ c ∈ w, c ≠ 'x' ∧ c ≠ 'X')
    (h : IsClosed rest) : hexLiteral? (w ++ rest) = none := by
  unfold hexLiteral?
  split
  · rename_i mark behind heq
    rw [if_neg]
    rintro ⟨hmark, -⟩
    rcases w with _ | ⟨c, _ | ⟨c', w⟩⟩
    · exact absurd rfl hne
    · obtain rfl : rest = mark :: behind := (List.cons.inj heq).2
      have := h.mem_closers mark rfl
      rcases hmark with rfl | rfl <;> exact absurd this (by decide)
    · obtain rfl : c' = mark := (List.cons.inj (List.cons.inj heq).2).1
      have := hw c' (by simp)
      rcases hmark with rfl | rfl
      · exact absurd rfl this.1
      · exact absurd rfl this.2
  · rfl

/-- A mantissa is read to its end: the digits before the point, and then those behind it. -/
theorem mantissa_append (h : IsMantissa whole places mantissa)
    (hrest : ∀ c ∈ rest.head?, c.isDigit = false ∧ c ≠ '.') :
    (mantissa ++ rest).takeWhile Char.isDigit = whole ∧
      fraction (!whole.isEmpty) ((mantissa ++ rest).dropWhile Char.isDigit) = (places, rest) ∧
      (whole.isEmpty && places.isEmpty) = false := by
  have hdigits : ∀ c ∈ rest.head?, c.isDigit = false := fun c hc => (hrest c hc).1
  have hpoint : ∀ c ∈ rest.head?, c ≠ '.' := fun c hc => (hrest c hc).2
  cases h with
  | integer hne h =>
    obtain ⟨htake, hdrop⟩ := takeWhile_append_of_head h hdigits
    rw [htake, hdrop, fraction_of_head hpoint]
    simp [hne]
  | @point whole places hne h hplaces =>
    have hstop : ∀ c ∈ ('.' :: (places ++ rest)).head?, c.isDigit = false := by simp
    obtain ⟨htake, hdrop⟩ := takeWhile_append_of_head h hstop
    obtain ⟨htake', hdrop'⟩ := takeWhile_append_of_head hplaces hdigits
    rw [List.append_assoc, List.cons_append, htake, hdrop]
    simp [fraction, hne, htake', hdrop']
  | @fraction places hne h =>
    obtain ⟨htake, hdrop⟩ := takeWhile_append_of_head h hdigits
    simp [fraction, hne, htake, hdrop]

/-- A mantissa is made of digits and points. -/
theorem isDigit_of_mem_mantissa (h : IsMantissa whole places mantissa) :
    mantissa ≠ [] ∧ ∀ c ∈ mantissa, c.isDigit = true ∨ c = '.' := by
  cases h with
  | integer hne h => exact ⟨hne, fun c hc => .inl (h c hc)⟩
  | point hne h hplaces =>
    refine ⟨by simp, List.forall_mem_append.mpr ⟨fun c hc => .inl (h c hc), ?_⟩⟩
    exact List.forall_mem_cons.mpr ⟨.inr rfl, fun c hc => .inl (hplaces c hc)⟩
  | fraction hne h =>
    exact ⟨by simp, List.forall_mem_cons.mpr ⟨.inr rfl, fun c hc => .inl (h c hc)⟩⟩

theorem not_mark_of_isDigit {c : Char} (h : c.isDigit = true) : c ≠ 'x' ∧ c ≠ 'X' := by
  constructor <;> rintro rfl <;> exact absurd h (by decide)

/-- There is no mark of hexadecimal digits in a decimal literal. -/
theorem not_mark_of_isSpelled (hmantissa : IsMantissa whole places mantissa)
    (hpower : IsPowerOfTen exponent power) :
    mantissa ++ power ≠ [] ∧ ∀ c ∈ mantissa ++ power, c ≠ 'x' ∧ c ≠ 'X' := by
  have hexponents : ∀ {mark : Char}, mark = 'e' ∨ mark = 'E' → mark ≠ 'x' ∧ mark ≠ 'X' := by
    rintro mark (rfl | rfl) <;> decide
  obtain ⟨hne, hmantissa⟩ := isDigit_of_mem_mantissa hmantissa
  constructor
  · exact List.append_ne_nil_of_left_ne_nil hne power
  · intro c hc
    rcases List.mem_append.mp hc with hc | hc
    · rcases hmantissa c hc with hc | rfl
      · exact not_mark_of_isDigit hc
      · decide
    · cases hpower with
      | none => exact absurd hc (by simp)
      | unsigned hmark hne h =>
        rcases List.mem_cons.mp hc with rfl | hc
        · exact hexponents hmark
        · exact not_mark_of_isDigit (h c hc)
      | plus hmark hne h | minus hmark hne h =>
        rcases List.mem_cons.mp hc with rfl | hc
        · exact hexponents hmark
        · rcases List.mem_cons.mp hc with rfl | hc
          · decide
          · exact not_mark_of_isDigit (h c hc)

/-- **A literal is read to its end** where the text behind it is closed. -/
theorem literal?_append (h : l.IsSpelled w) (hrest : IsClosed rest) :
    literal? (w ++ rest) = some (l, rest) := by
  cases h with
  | hexadecimal hmark hne h =>
    rw [List.cons_append, List.cons_append, literal?, hexLiteral?_append_closed hmark hne h hrest]
  | @decimal whole places mantissa power exponent hmantissa hpower =>
    obtain ⟨hne, hmark⟩ := not_mark_of_isSpelled hmantissa hpower
    obtain ⟨hwhole, hfraction, hempty⟩ :=
      mantissa_append hmantissa (head_of_isPowerOfTen hpower hrest)
    rw [literal?, hexLiteral?_of_forall hne hmark hrest, List.append_assoc]
    simp only [decimalLiteral?, hwhole, hfraction, hempty, exponent_append hpower hrest,
      Bool.false_eq_true, if_false]

/-! ### What is read is written so -/

theorem exists_of_exponentSign {negative : Bool} (h : exponentSign text = (negative, rest)) :
    (negative = true ∧ text = '-' :: rest) ∨
      (negative = false ∧ (text = '+' :: rest ∨ text = rest)) := by
  unfold exponentSign at h
  split at h <;> obtain ⟨rfl, rfl⟩ := Prod.mk.inj h
  · exact .inl ⟨rfl, rfl⟩
  · exact .inr ⟨rfl, .inl rfl⟩
  · exact .inr ⟨rfl, .inr rfl⟩

theorem exists_of_exponent (h : Token.exponent text = (exponent, rest)) :
    ∃ power, text = power ++ rest ∧ IsPowerOfTen exponent power := by
  unfold Token.exponent at h
  split at h
  · obtain ⟨rfl, rfl⟩ := Prod.mk.inj h
    exact ⟨[], rfl, .none⟩
  · rename_i mark behind
    obtain ⟨negative, digits, hsign⟩ :
        ∃ negative digits, exponentSign behind = (negative, digits) := ⟨_, _, rfl⟩
    simp only [hsign] at h
    split at h
    · rename_i hmark
      obtain ⟨hmark, hne⟩ := hmark
      obtain ⟨rfl, rfl⟩ := Prod.mk.inj h
      have hdigits : ∀ d ∈ digits.takeWhile Char.isDigit, d.isDigit = true :=
        fun d hd => List.mem_takeWhile_imp hd
      rcases exists_of_exponentSign hsign with ⟨rfl, rfl⟩ | ⟨rfl, rfl | rfl⟩
      · exact ⟨_, by simp, .minus hmark hne hdigits⟩
      · exact ⟨_, by simp, .plus hmark hne hdigits⟩
      · exact ⟨_, by simp, .unsigned hmark hne hdigits⟩
    · obtain ⟨rfl, rfl⟩ := Prod.mk.inj h
      exact ⟨[], rfl, .none⟩

theorem exists_of_fraction {afterDigits : Bool} (h : fraction afterDigits text = (places, rest)) :
    (places = [] ∧ text = rest) ∨
      (text = '.' :: (places ++ rest) ∧ (afterDigits = true ∨ places ≠ []) ∧
        ∀ d ∈ places, d.isDigit = true) := by
  unfold fraction at h
  split at h
  · rename_i behind
    split at h
    · rename_i hsome
      obtain ⟨rfl, rfl⟩ := Prod.mk.inj h
      exact .inr ⟨by simp, by simpa using hsome, fun d hd => List.mem_takeWhile_imp hd⟩
    · obtain ⟨rfl, rfl⟩ := Prod.mk.inj h
      exact .inl ⟨rfl, rfl⟩
  · obtain ⟨rfl, rfl⟩ := Prod.mk.inj h
    exact .inl ⟨rfl, rfl⟩

theorem exists_of_hexLiteral? (h : hexLiteral? text = some (l, rest)) :
    ∃ w, text = w ++ rest ∧ l.IsSpelled w := by
  unfold hexLiteral? at h
  split at h
  · split at h
    · rename_i mark behind hmark
      obtain ⟨rfl, rfl⟩ := Prod.mk.inj (Option.some.inj h)
      exact ⟨_, by simp, .hexadecimal hmark.1 hmark.2 fun d hd => List.mem_takeWhile_imp hd⟩
    · exact absurd h (by simp)
  · exact absurd h (by simp)

theorem exists_of_decimalLiteral? (h : decimalLiteral? text = some (l, rest)) :
    ∃ w, text = w ++ rest ∧ l.IsSpelled w := by
  have hdigits : ∀ d ∈ text.takeWhile Char.isDigit, d.isDigit = true :=
    fun d hd => List.mem_takeWhile_imp hd
  have htext := List.takeWhile_append_dropWhile (p := Char.isDigit) (l := text)
  unfold decimalLiteral? at h
  simp only at h
  generalize text.takeWhile Char.isDigit = whole at h hdigits htext
  generalize text.dropWhile Char.isDigit = behind at h htext
  subst htext
  obtain ⟨places, behind', hfraction⟩ :
      ∃ places behind', fraction (!whole.isEmpty) behind = (places, behind') := ⟨_, _, rfl⟩
  rw [hfraction] at h
  simp only at h
  split at h
  · exact absurd h (by simp)
  · rename_i hsome
    obtain ⟨exponent, rest', hexponent⟩ :
        ∃ exponent rest', Token.exponent behind' = (exponent, rest') := ⟨_, _, rfl⟩
    rw [hexponent] at h
    obtain ⟨rfl, rfl⟩ := Prod.mk.inj (Option.some.inj h)
    obtain ⟨power, rfl, hpower⟩ := exists_of_exponent hexponent
    rcases exists_of_fraction hfraction with ⟨rfl, rfl⟩ | ⟨rfl, hpoint, hplaces⟩
    · have hne : whole ≠ [] := by simpa using hsome
      exact ⟨whole ++ power, by simp, .decimal (.integer hne hdigits) hpower⟩
    · by_cases hne : whole = []
      · subst hne
        have hne' : places ≠ [] := by simpa using hpoint
        exact ⟨'.' :: places ++ power, by simp, .decimal (.fraction hne' hplaces) hpower⟩
      · exact ⟨whole ++ '.' :: places ++ power, by simp,
          .decimal (.point hne hdigits hplaces) hpower⟩

/-- **Whatever is read as a literal** is written as a literal is. -/
theorem exists_of_literal? (h : literal? text = some (l, rest)) :
    ∃ w, text = w ++ rest ∧ l.IsSpelled w := by
  unfold literal? at h
  split at h
  · rename_i found hfound
    obtain rfl := Option.some.inj h
    exact exists_of_hexLiteral? hfound
  · exact exists_of_decimalLiteral? h

/-! ### The longest literal -/

theorem length_exponent_append_le (h : IsPowerOfTen exponent power) :
    (Token.exponent (power ++ rest)).2.length ≤ rest.length := by
  have hdrop : ∀ {digits : List Char}, (∀ d ∈ digits, d.isDigit = true) →
      ((digits ++ rest).dropWhile Char.isDigit).length ≤ rest.length := by
    intro digits h
    rw [List.dropWhile_append_of_pos h]
    exact length_dropWhile_le _ _
  have hsome : ∀ {digits : List Char}, digits ≠ [] → (∀ d ∈ digits, d.isDigit = true) →
      (digits ++ rest).takeWhile Char.isDigit ≠ [] := by
    intro digits hne h
    rw [List.takeWhile_append_of_pos h]
    exact List.append_ne_nil_of_left_ne_nil hne _
  cases h with
  | none => exact length_exponent_le rest
  | @unsigned mark digits hmark hne h =>
    have hsign : exponentSign (digits ++ rest) = (false, digits ++ rest) :=
      exponentSign_of_isDigit hne h
    rw [List.cons_append, Token.exponent]
    simp only [hsign]
    rw [if_pos ⟨hmark, hsome hne h⟩]
    exact hdrop h
  | @plus mark digits hmark hne h | @minus mark digits hmark hne h =>
    rw [List.cons_append, List.cons_append, Token.exponent]
    simp only [exponentSign]
    rw [if_pos ⟨hmark, hsome hne h⟩]
    exact hdrop h

/-- Behind digits, a power of ten is taken neither for more digits nor for a fraction. -/
theorem dropWhile_of_isPowerOfTen (h : IsPowerOfTen exponent power) (hne : power ≠ []) :
    (power ++ rest).dropWhile Char.isDigit = power ++ rest ∧
      ∀ afterDigits, fraction afterDigits (power ++ rest) = ([], power ++ rest) := by
  have hhead : ∀ c ∈ (power ++ rest).head?, c.isDigit = false ∧ c ≠ '.' := by
    obtain ⟨c, tail, rfl⟩ := List.exists_cons_of_ne_nil hne
    intro c' hc'
    exact head_of_isPowerOfTen h isClosed_nil c' (by simpa using hc')
  refine ⟨(takeWhile_append_of_head (w := []) (by simp) fun c hc => (hhead c hc).1).2, ?_⟩
  exact fun afterDigits => fraction_of_head fun c hc => (hhead c hc).2

theorem length_exponent_dropWhile_le (h : IsPowerOfTen exponent power) :
    (Token.exponent ((power ++ rest).dropWhile Char.isDigit)).2.length ≤ rest.length := by
  by_cases hnil : power = []
  · subst hnil
    exact (length_exponent_le _).trans (length_dropWhile_le _ _)
  · rw [(dropWhile_of_isPowerOfTen h hnil).1]
    exact length_exponent_append_le h

theorem length_exponent_fraction_le (h : IsPowerOfTen exponent power) (afterDigits : Bool) :
    (Token.exponent (fraction afterDigits
      ((power ++ rest).dropWhile Char.isDigit)).2).2.length ≤ rest.length := by
  by_cases hnil : power = []
  · subst hnil
    have hfraction := length_fraction_le afterDigits (rest.dropWhile Char.isDigit)
    have hdrop := length_dropWhile_le Char.isDigit rest
    refine (length_exponent_le _).trans ?_
    rw [List.nil_append]
    omega
  · rw [(dropWhile_of_isPowerOfTen h hnil).1, (dropWhile_of_isPowerOfTen h hnil).2]
    exact length_exponent_append_le h

theorem length_le_of_decimalLiteral? (hmantissa : IsMantissa whole places mantissa)
    (hpower : IsPowerOfTen exponent power) {behind : List Char}
    (h : decimalLiteral? (mantissa ++ (power ++ rest)) = some (l, behind)) :
    behind.length ≤ rest.length := by
  have hbehind : behind = (Token.exponent (fraction
      (!((mantissa ++ (power ++ rest)).takeWhile Char.isDigit).isEmpty)
      ((mantissa ++ (power ++ rest)).dropWhile Char.isDigit)).2).2 := by
    unfold decimalLiteral? at h
    simp only at h
    split at h
    · exact absurd h (by simp)
    · exact (Prod.mk.inj (Option.some.inj h)).2.symm
  rw [hbehind]
  cases hmantissa with
  | integer hne hwhole =>
    rw [List.dropWhile_append_of_pos hwhole]
    exact length_exponent_fraction_le hpower _
  | @point whole places hne hwhole hplaces =>
    have hstop : ∀ c ∈ ('.' :: (places ++ (power ++ rest))).head?, c.isDigit = false := by simp
    obtain ⟨htake, hdrop⟩ := takeWhile_append_of_head hwhole hstop
    have hempty : whole.isEmpty = false := by simpa using hne
    rw [List.append_assoc, List.cons_append, htake, hdrop, hempty, fraction, Bool.not_false,
      Bool.true_or, if_pos rfl, List.dropWhile_append_of_pos hplaces]
    exact length_exponent_dropWhile_le hpower
  | @fraction places hne hplaces =>
    have hsome : (places ++ (power ++ rest)).takeWhile Char.isDigit ≠ [] := by
      rw [List.takeWhile_append_of_pos hplaces]
      exact List.append_ne_nil_of_left_ne_nil hne _
    have hpoint : ('.' :: (places ++ (power ++ rest))).dropWhile Char.isDigit =
        '.' :: (places ++ (power ++ rest)) := List.dropWhile_cons_of_neg (by decide)
    rw [List.cons_append, hpoint, fraction, if_pos (by simp [hsome]),
      List.dropWhile_append_of_pos hplaces]
    exact length_exponent_dropWhile_le hpower

/-- **The literal that is read is the longest one** at the start of a text. -/
theorem length_le_of_literal? {l' : Literal} {behind : List Char} (h : l'.IsSpelled w)
    (hread : literal? (w ++ rest) = some (l, behind)) : behind.length ≤ rest.length := by
  cases h with
  | @hexadecimal mark digits hmark hne h =>
    have hsome : (digits ++ rest).takeWhile isHexDigit ≠ [] := by
      rw [List.takeWhile_append_of_pos h]
      exact List.append_ne_nil_of_left_ne_nil hne _
    rw [List.cons_append, List.cons_append, literal?, hexLiteral?, if_pos ⟨hmark, hsome⟩] at hread
    obtain ⟨-, rfl⟩ := Prod.mk.inj (Option.some.inj hread)
    rw [List.dropWhile_append_of_pos h]
    exact length_dropWhile_le _ _
  | @decimal whole places mantissa power exponent hmantissa hpower =>
    rw [literal?] at hread
    split at hread
    · -- A hexadecimal literal goes on behind the mark, which is behind the decimal one.
      rename_i found hfound
      obtain rfl := Option.some.inj hread
      obtain ⟨hsome, hforall⟩ := not_mark_of_isSpelled hmantissa hpower
      generalize mantissa ++ power = w at hfound hsome hforall
      unfold hexLiteral? at hfound
      split at hfound
      · rename_i mark more heq
        split at hfound
        · rename_i hmark
          obtain ⟨-, rfl⟩ := Prod.mk.inj (Option.some.inj hfound)
          rcases w with _ | ⟨c, _ | ⟨c', w⟩⟩
          · exact absurd rfl hsome
          · obtain rfl : rest = mark :: more := (List.cons.inj heq).2
            exact (length_dropWhile_le _ _).trans (Nat.le_succ _)
          · obtain rfl : c' = mark := (List.cons.inj (List.cons.inj heq).2).1
            have hneither := hforall c' (by simp)
            exact absurd hmark.1 (by simp [hneither])
        · exact absurd hfound (by simp)
      · exact absurd hfound (by simp)
    · rw [List.append_assoc] at hread
      exact length_le_of_decimalLiteral? hmantissa hpower hread

end Token

end WireCodec
