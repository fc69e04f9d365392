import WireCodec.Proofs.Expression.Scanner

/-!
# Where literals end

A literal goes on as long as it can, and what is behind it decides where it ends. Before a closed
text it ends where its digits do: none of the characters that a closed text may start with is a
digit, a point, or the mark of an exponent or of hexadecimal digits
(`WireCodec.Token.takeWhile_append_closed`). So digits are read as the integer that they spell
(`WireCodec.Token.decimalLiteral?_append_closed`, `WireCodec.Token.hexLiteral?_append_closed`).

Every literal takes characters away from the text (`WireCodec.Token.shortens_literal?`), as the
scanner needs it.
-/

namespace WireCodec

/-! ### Where a text is closed -/

namespace Token

variable {w rest : List Char} {p : Char → Bool}

/-- The characters that a closed text may start with. -/
def closers : List Char :=
  [' ', '\t', '\r', '\n', '+', '-', '*', '/', '%', '^', ')']

theorem mem_closers_of_isBlank {c : Char} (h : isBlank c = true) : c ∈ closers := by
  simp only [isBlank, Bool.or_eq_true, beq_iff_eq] at h
  rcases h with ((rfl | rfl) | rfl) | rfl <;> decide

theorem IsClosed.mem_closers (h : IsClosed rest) : ∀ c ∈ rest.head?, c ∈ closers := by
  intro c hc
  cases rest with
  | nil => exact absurd hc (by simp)
  | cons c' rest =>
    obtain rfl : c' = c := by simpa using hc
    cases hblank : isBlank c' with
    | true => exact mem_closers_of_isBlank hblank
    | false =>
      obtain ⟨t, ht, hne⟩ := h c' (by simp [hblank])
      rw [ofChar?_eq_some_iff] at ht
      cases t
      case literal a => exact a.elim
      case opening => exact absurd rfl hne
      all_goals
        obtain rfl := Option.some.inj ht
        decide

/-- Characters of one kind end where the text is closed. -/
theorem takeWhile_append_closed (hw : ∀ c ∈ w, p c = true) (hp : closers.any p = false)
    (h : IsClosed rest) :
    (w ++ rest).takeWhile p = w ∧ (w ++ rest).dropWhile p = rest := by
  rw [List.takeWhile_append_of_pos hw, List.dropWhile_append_of_pos hw]
  cases rest with
  | nil => simp
  | cons c rest =>
    have hc : p c = false := by simpa using List.any_eq_false.mp hp c (h.mem_closers c rfl)
    simp [hc]

/-! ### Literals -/

theorem length_dropWhile_le (p : Char → Bool) (text : List Char) :
    (text.dropWhile p).length ≤ text.length :=
  (List.dropWhile_suffix p).length_le

theorem length_takeWhile_add (p : Char → Bool) (text : List Char) :
    (text.takeWhile p).length + (text.dropWhile p).length = text.length := by
  rw [← List.length_append, List.takeWhile_append_dropWhile]

theorem length_fraction_le (afterDigits : Bool) (text : List Char) :
    (fraction afterDigits text).1.length + (fraction afterDigits text).2.length ≤ text.length := by
  unfold fraction
  split
  · split
    · have := length_takeWhile_add Char.isDigit ‹_›
      simp only [List.length_cons]
      omega
    · simp
  · simp

theorem length_exponent_le (text : List Char) : (exponent text).2.length ≤ text.length := by
  have hsign : ∀ text, (exponentSign text).2.length ≤ text.length := by
    intro text
    unfold exponentSign
    split <;> simp
  unfold exponent
  split
  · exact Nat.le_refl _
  · rename_i mark rest
    have hdigits := length_dropWhile_le Char.isDigit (exponentSign rest).2
    have := hsign rest
    simp only
    split
    · simp only [List.length_cons]
      omega
    · exact Nat.le_refl _

theorem shortens_hexLiteral? : Shortens hexLiteral? := by
  intro text l rest h
  unfold hexLiteral? at h
  split at h
  · rename_i mark digits
    split at h
    · obtain ⟨-, rfl⟩ := by simpa using h
      have := length_dropWhile_le isHexDigit digits
      simp only [List.length_cons]
      omega
    · exact absurd h (by simp)
  · exact absurd h (by simp)

theorem shortens_decimalLiteral? : Shortens decimalLiteral? := by
  intro text l rest h
  have hwhole := length_takeWhile_add Char.isDigit text
  unfold decimalLiteral? at h
  simp only at h
  generalize text.takeWhile Char.isDigit = whole at h hwhole
  have hplaces := length_fraction_le (!whole.isEmpty) (text.dropWhile Char.isDigit)
  generalize fraction (!whole.isEmpty) (text.dropWhile Char.isDigit) = found at h hplaces
  have hrest := length_exponent_le found.2
  split at h
  · exact absurd h (by simp)
  · rename_i hsome
    obtain ⟨-, rfl⟩ := by simpa using h
    -- A literal has digits before its point or behind it, and they are not in the rest.
    have hpos : 0 < whole.length + found.1.length := by
      rw [Bool.and_eq_true, List.isEmpty_iff_length_eq_zero, List.isEmpty_iff_length_eq_zero,
        Decidable.not_and_iff_not_or_not] at hsome
      omega
    omega

theorem shortens_literal? : Shortens literal? := by
  intro text l rest h
  unfold literal? at h
  split at h
  · rename_i found hfound
    obtain rfl := Option.some.inj h
    exact shortens_hexLiteral? _ _ _ hfound
  · exact shortens_decimalLiteral? _ _ _ h

variable {c : Char} {digits : List Char}

theorem hexLiteral?_of_ne (h : c ≠ '0') : hexLiteral? (c :: rest) = none := by
  unfold hexLiteral?
  split
  · rename_i heq
    exact absurd (List.cons.inj heq).1 h
  · rfl

/-- Neither a fraction nor an exponent stands where a text is closed. -/
theorem decimalLiteral?_append_closed (hne : digits ≠ []) (hw : ∀ d ∈ digits, d.isDigit = true)
    (h : IsClosed rest) :
    decimalLiteral? (digits ++ rest) = some (.decimal ⟨digitsValue 10 digits, 0⟩, rest) := by
  obtain ⟨htake, hdrop⟩ := takeWhile_append_closed hw (by decide) h
  have hfraction : fraction true rest = ([], rest) := by
    unfold fraction
    split
    · exact absurd (h.mem_closers '.' rfl) (by decide)
    · rfl
  have hexponent : exponent rest = (0, rest) := by
    unfold exponent
    split
    · rfl
    · rename_i mark rest
      have hmark := h.mem_closers mark rfl
      simp only
      rw [if_neg]
      rintro ⟨rfl | rfl, -⟩ <;> exact absurd hmark (by decide)
  have hempty : digits.isEmpty = false := by simpa using hne
  simp [decimalLiteral?, htake, hdrop, hempty, hfraction, hexponent]

theorem hexLiteral?_append_closed {mark : Char} (hmark : mark = 'x' ∨ mark = 'X')
    (hne : digits ≠ []) (hw : ∀ d ∈ digits, isHexDigit d = true) (h : IsClosed rest) :
    hexLiteral? ('0' :: mark :: (digits ++ rest)) =
      some (.hexadecimal ('0' :: mark :: digits), rest) := by
  obtain ⟨htake, hdrop⟩ := takeWhile_append_closed hw (by decide) h
  rw [hexLiteral?, htake, hdrop, if_pos ⟨hmark, hne⟩]

/-- Decimal digits are not taken for a hexadecimal literal. -/
theorem hexLiteral?_digits (hw : ∀ d ∈ digits, d.isDigit = true) (h : IsClosed rest) :
    hexLiteral? (digits ++ rest) = none := by
  unfold hexLiteral?
  split
  · rename_i mark behind heq
    rw [if_neg]
    rintro ⟨hmark, -⟩
    rcases digits with _ | ⟨d, _ | ⟨d', digits⟩⟩
    · obtain rfl : rest = '0' :: mark :: behind := heq
      exact absurd (h.mem_closers '0' rfl) (by decide)
    · obtain rfl : rest = mark :: behind := (List.cons.inj heq).2
      have := h.mem_closers mark rfl
      rcases hmark with rfl | rfl <;> exact absurd this (by decide)
    · obtain rfl : d' = mark := (List.cons.inj (List.cons.inj heq).2).1
      have := hw d' (by simp)
      rcases hmark with rfl | rfl <;> exact absurd this (by decide)
  · rfl

/-- What does not start with a digit or a point is no literal. -/
theorem literal?_eq_none (hdigit : c.isDigit = false) (hpoint : c ≠ '.') :
    literal? (c :: rest) = none := by
  have hzero : c ≠ '0' := by
    rintro rfl
    exact absurd hdigit (by decide)
  have hfraction : fraction false (c :: rest) = ([], c :: rest) := by
    unfold fraction
    split
    · rename_i heq
      exact absurd (List.cons.inj heq).1 hpoint
    · rfl
  simp [literal?, hexLiteral?_of_ne hzero, decimalLiteral?, hdigit, hfraction]

end Token

end WireCodec
