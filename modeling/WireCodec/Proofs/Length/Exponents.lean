import Mathlib.Data.List.DropRight
import WireCodec.Proofs.Expression.Evaluation
import WireCodec.Proofs.Length.Shape

/-!
# Exponents at the top level

Two readers go through the text of a length. A numeric expression is read literal by literal, and a
length with names in it is first cut at every `+` of its top level. They disagree on one character:
the `+` of an exponent, as in `1e+5`, is a part of the literal to the one and a separator to the
other. Which texts have such an exponent is said without either of them
(`WireCodec.HasPlusExponent`).

* Without one, a numeric expression that is no sum has no `+` at its top level
  (`WireCodec.Expression.Derives.hasNoPlus`).
* With one, a numeric expression is cut into parts of which one is no numeric expression
  (`WireCodec.HasPlusExponent.exists_part`).

Inside of parentheses, and in hexadecimal digits before a `+`, there is nothing to disagree on.
-/

namespace WireCodec

open Token Expression

variable {α : Type} {text first rest w : List Char} {c : Char} {level : Level}

/-! ### Exponents -/

/-- The characters of literals, the signs of exponents apart. -/
def isLiteralChar (c : Char) : Bool :=
  isNameChar c || c == '.'

/-- **The text ends in a decimal number**: the literal at its end has digits and points only. -/
def endsInDecimal (text : List Char) : Bool :=
  let literal := text.rtakeWhile isLiteralChar
  !literal.isEmpty && literal.all fun c => c.isDigit || c == '.'

/-- **An exponent with a `+` is at the top level of the text**: a decimal number, the mark of an
exponent and a `+`. -/
def HasPlusExponent (text : List Char) : Prop :=
  ∃ before mark behind, text = before ++ mark :: '+' :: behind ∧ (mark = 'e' ∨ mark = 'E') ∧
    depthBehind 0 before = 0 ∧ endsInDecimal before = true

/-- It is known from the places of the text. -/
theorem hasPlusExponent_iff : HasPlusExponent text ↔ ∃ place < text.length,
    (text[place]? = some 'e' ∨ text[place]? = some 'E') ∧ text[place + 1]? = some '+' ∧
      depthBehind 0 (text.take place) = 0 ∧ endsInDecimal (text.take place) = true := by
  constructor
  · rintro ⟨before, mark, behind, rfl, hmark, hdepth, hdecimal⟩
    have hplus : (before ++ mark :: '+' :: behind)[before.length + 1]? = some '+' := by simp
    refine ⟨before.length, by simp, ?_, hplus, ?_⟩
    · rw [List.getElem?_append_right (Nat.le_refl _), Nat.sub_self, List.getElem?_cons_zero]
      exact hmark.imp (congrArg some) (congrArg some)
    · rw [List.take_left]
      exact ⟨hdepth, hdecimal⟩
  · rintro ⟨place, hplace, hmark, hplus, hdepth, hdecimal⟩
    obtain ⟨hnext, hplus⟩ := List.getElem?_eq_some_iff.mp hplus
    refine ⟨text.take place, text[place], text.drop (place + 1 + 1), ?_, ?_, hdepth, hdecimal⟩
    · rw [← hplus, ← List.drop_eq_getElem_cons hnext, ← List.drop_eq_getElem_cons hplace,
        List.take_append_drop]
    · rw [List.getElem?_eq_getElem hplace] at hmark
      exact hmark.imp Option.some.inj Option.some.inj

instance : DecidablePred HasPlusExponent := fun _ => decidable_of_iff _ hasPlusExponent_iff.symm

/-- What is behind the end of a literal ends in a decimal number by itself. -/
theorem endsInDecimal_append (h : ∀ c ∈ first.getLast?, isLiteralChar c = false) :
    endsInDecimal (first ++ rest) = endsInDecimal rest := by
  have hliteral : (first ++ rest).rtakeWhile isLiteralChar = rest.rtakeWhile isLiteralChar := by
    induction rest using List.reverseRecOn with
    | nil =>
      rw [List.append_nil, List.rtakeWhile_nil, List.rtakeWhile_eq_nil_iff]
      intro hne
      rw [h _ (List.getLast?_eq_some_getLast hne)]
      exact Bool.false_ne_true
    | append_singleton rest c ih =>
      rw [← List.append_assoc, List.rtakeWhile_concat, List.rtakeWhile_concat, ih]
  rw [endsInDecimal, hliteral, endsInDecimal]

theorem HasPlusExponent.append (h : HasPlusExponent first) (rest : List Char) :
    HasPlusExponent (first ++ rest) := by
  obtain ⟨before, mark, behind, rfl, hrest⟩ := h
  exact ⟨before, mark, behind ++ rest, by simp, hrest⟩

/-- An exponent stays at the top level behind a nested text that does not end in a literal. -/
theorem HasPlusExponent.append_left (h : HasPlusExponent rest) (hfirst : IsNested first)
    (hlast : ∀ c ∈ first.getLast?, isLiteralChar c = false) : HasPlusExponent (first ++ rest) := by
  obtain ⟨before, mark, behind, rfl, hmark, hdepth, hdecimal⟩ := h
  refine ⟨first ++ before, mark, behind, by simp, hmark, ?_, ?_⟩
  · rw [depthBehind_append, hfirst.depthBehind, hdepth]
  · rw [endsInDecimal_append hlast, hdecimal]

/-! ### Literals and operators in a text -/

theorem isLiteralChar_of_isNameChar (h : isNameChar c = true) : isLiteralChar c = true := by
  rw [isLiteralChar, h, Bool.true_or]

theorem isLiteralChar_of_isDigit (h : c.isDigit = true) : isLiteralChar c = true :=
  isLiteralChar_of_isNameChar (Operand.isNameChar_of_isDigit h)

theorem not_isLiteralChar_of_isBlank (h : isBlank c = true) : isLiteralChar c = false := by
  have hnone : closers.any isLiteralChar = false := by decide
  simpa using List.any_eq_false.mp hnone c (mem_closers_of_isBlank h)

theorem not_isLiteralChar_of_signOf? {t : Token α} (h : signOf? t = some c) :
    isLiteralChar c = false := by
  cases t <;> cases h <;> decide

theorem endsInDecimal_of_isMantissa {whole places mantissa : List Char}
    (h : IsMantissa whole places mantissa) : endsInDecimal mantissa = true := by
  obtain ⟨hne, hforall⟩ := isDigit_of_mem_mantissa h
  have hliteral : mantissa.rtakeWhile isLiteralChar = mantissa := by
    refine List.rtakeWhile_eq_self_iff.mpr fun c hc => ?_
    rcases hforall c hc with hc | rfl
    · exact isLiteralChar_of_isDigit hc
    · decide
  rw [endsInDecimal, hliteral, Bool.and_eq_true, List.all_eq_true]
  exact ⟨by simpa using hne, fun c hc => by simpa using hforall c hc⟩

namespace Literal.IsSpelled

variable {l : Literal}

/-- The characters of a literal, and the sign that an exponent may have. -/
theorem isLiteralChar_of_mem (h : l.IsSpelled w) :
    ∀ c ∈ w, isLiteralChar c = true ∨ c = '+' ∨ c = '-' := by
  have hdigits : ∀ {digits : List Char}, (∀ d ∈ digits, d.isDigit = true) →
      ∀ c ∈ digits, isLiteralChar c = true ∨ c = '+' ∨ c = '-' :=
    fun h c hc => .inl (isLiteralChar_of_isDigit (h c hc))
  have hexponents : ∀ {mark : Char}, mark = 'e' ∨ mark = 'E' → isLiteralChar mark = true := by
    rintro mark (rfl | rfl) <;> decide
  cases h with
  | hexadecimal hmark hne h =>
    refine List.forall_mem_cons.mpr ⟨.inl (by decide), List.forall_mem_cons.mpr ⟨.inl ?_, ?_⟩⟩
    · rcases hmark with rfl | rfl <;> decide
    · exact fun c hc => .inl (isLiteralChar_of_isNameChar (isNameChar_of_isHexDigit (h c hc)))
  | decimal hmantissa hpower =>
    refine List.forall_mem_append.mpr ⟨fun c hc => ?_, ?_⟩
    · rcases (isDigit_of_mem_mantissa hmantissa).2 c hc with hc | rfl
      · exact .inl (isLiteralChar_of_isDigit hc)
      · exact .inl (by decide)
    · cases hpower with
      | none => simp
      | unsigned hmark hne h =>
        exact List.forall_mem_cons.mpr ⟨.inl (hexponents hmark), hdigits h⟩
      | plus hmark hne h =>
        exact List.forall_mem_cons.mpr ⟨.inl (hexponents hmark),
          List.forall_mem_cons.mpr ⟨.inr (.inl rfl), hdigits h⟩⟩
      | minus hmark hne h =>
        exact List.forall_mem_cons.mpr ⟨.inl (hexponents hmark),
          List.forall_mem_cons.mpr ⟨.inr (.inr rfl), hdigits h⟩⟩

theorem isNested (h : l.IsSpelled w) : IsNested w := by
  refine isNested_of_forall fun c hc => ?_
  rcases h.isLiteralChar_of_mem c hc with hc | rfl | rfl
  · constructor <;> rintro rfl <;> exact absurd hc (by decide)
  · decide
  · decide

/-- **A `+` in a literal** is the sign of an exponent. -/
theorem hasPlusExponent (h : l.IsSpelled w) (hmem : '+' ∈ w) : HasPlusExponent w := by
  have hdigits : ∀ {digits : List Char}, (∀ d ∈ digits, d.isDigit = true) → '+' ∉ digits :=
    fun h hmem => absurd (h _ hmem) (by decide)
  have hexponents : ∀ {mark : Char}, mark = 'e' ∨ mark = 'E' → '+' ≠ mark := by
    rintro mark (rfl | rfl) <;> decide
  cases h with
  | hexadecimal hmark hne h =>
    rcases List.mem_cons.mp hmem with hc | hmem
    · exact absurd hc (by decide)
    · rcases List.mem_cons.mp hmem with hc | hmem
      · rcases hmark with rfl | rfl <;> exact absurd hc (by decide)
      · exact absurd (isNameChar_of_isHexDigit (h _ hmem)) (by decide)
  | @decimal whole places mantissa power exponent hmantissa hpower =>
    rcases List.mem_append.mp hmem with hmem | hmem
    · exact absurd ((isDigit_of_mem_mantissa hmantissa).2 _ hmem) (by decide)
    · cases hpower with
      | none => exact absurd hmem (by simp)
      | unsigned hmark hne h =>
        exact absurd hmem (List.not_mem_cons_of_ne_of_not_mem (hexponents hmark) (hdigits h))
      | @plus mark digits hmark hne h =>
        have hspelled : Literal.IsSpelled _ (mantissa ++ []) := .decimal hmantissa .none
        rw [List.append_nil] at hspelled
        exact ⟨mantissa, mark, digits, rfl, hmark, hspelled.isNested.depthBehind 0,
          endsInDecimal_of_isMantissa hmantissa⟩
      | minus hmark hne h =>
        have hsign := List.not_mem_cons_of_ne_of_not_mem (by decide : '+' ≠ '-') (hdigits h)
        exact absurd hmem (List.not_mem_cons_of_ne_of_not_mem (hexponents hmark) hsign)

end Literal.IsSpelled

/-- Literals neither start nor end with a blank. -/
theorem Literal.isSolid : IsSolid Literal.IsSpelled := by
  have hblank : ∀ {l : Literal} {w}, l.IsSpelled w → ∀ c ∈ w, Text.isBlank c = false := by
    intro l w h c hc
    rcases h.isLiteralChar_of_mem c hc with hc | rfl | rfl
    · rw [isLiteralChar, Bool.or_eq_true, beq_iff_eq] at hc
      rcases hc with hc | rfl
      · exact Text.isBlank_of_isNameChar hc
      · decide
    · decide
    · decide
  refine ⟨fun h => ?_, fun {l w} h => ?_⟩
  · obtain ⟨c, tail, rfl, -⟩ := h.exists_cons
    exact ⟨c, tail, rfl, hblank h c List.mem_cons_self⟩
  · have hne : w ≠ [] := by
      obtain ⟨c, tail, rfl, -⟩ := h.exists_cons
      exact List.cons_ne_nil c tail
    exact ⟨w.dropLast, w.getLast hne, (List.dropLast_append_getLast hne).symm,
      hblank h _ (List.getLast_mem hne)⟩

/-- An operator does not end in a literal, whatever is before it. -/
theorem not_isLiteralChar_of_isWritten {spells : α → List Char → Prop} {t : Token α}
    (hw : IsWritten spells t w) (ht : signOf? t = some c) (left : List Char) :
    ∀ d ∈ (left ++ w).getLast?, isLiteralChar d = false := by
  obtain ⟨before, after, rfl, -, hafter⟩ := exists_of_signOf? hw ht
  intro d hd
  rw [← List.append_assoc, List.getLast?_append_cons] at hd
  rcases List.mem_cons.mp (List.mem_of_getLast? hd) with rfl | hd
  · exact not_isLiteralChar_of_signOf? ht
  · exact not_isLiteralChar_of_isBlank (hafter d hd)

/-! ### Texts that are cut within an exponent -/

/-- A decimal number does not end in the mark of an exponent. -/
theorem not_isMark_of_getLast? {whole places mantissa power : List Char} {exponent : Int}
    (hmantissa : IsMantissa whole places mantissa) (hpower : IsPowerOfTen exponent power) :
    ∀ c ∈ (mantissa ++ power).getLast?, c ≠ 'e' ∧ c ≠ 'E' := by
  have hdigit : ∀ {c : Char}, c.isDigit = true → c ≠ 'e' ∧ c ≠ 'E' := by
    intro c hc
    constructor <;> rintro rfl <;> exact absurd hc (by decide)
  have hpower' : power = [] ∨ ∃ first digits, power = first ++ digits ∧ digits ≠ [] ∧
      ∀ d ∈ digits, d.isDigit = true := by
    cases hpower with
    | none => exact .inl rfl
    | @unsigned mark digits _ hne h => exact .inr ⟨[mark], digits, rfl, hne, h⟩
    | @plus mark digits _ hne h => exact .inr ⟨[mark, '+'], digits, rfl, hne, h⟩
    | @minus mark digits _ hne h => exact .inr ⟨[mark, '-'], digits, rfl, hne, h⟩
  intro c hc
  rcases hpower' with rfl | ⟨first, digits, rfl, hne, h⟩
  · rw [List.append_nil] at hc
    rcases (isDigit_of_mem_mantissa hmantissa).2 c (List.mem_of_getLast? hc) with hc | rfl
    · exact hdigit hc
    · decide
  · rw [← List.append_assoc, List.getLast?_append_of_ne_nil _ hne] at hc
    exact hdigit (h c (List.mem_of_getLast? hc))

/-- A literal that ends in the mark of an exponent is hexadecimal, so there is no decimal number
before the mark. -/
theorem Literal.IsSpelled.not_endsInDecimal {l : Literal} {init : List Char} {mark : Char}
    (h : l.IsSpelled (init ++ [mark])) (hmark : mark = 'e' ∨ mark = 'E') (first : List Char) :
    endsInDecimal (first ++ init) = false := by
  generalize hw : init ++ [mark] = w at h
  cases h with
  | @hexadecimal sign digits hsign hne h =>
    obtain ⟨digits, last, rfl⟩ := (List.eq_nil_or_concat digits).resolve_left hne
    rw [List.concat_eq_append, ← List.cons_append, ← List.cons_append] at hw
    obtain ⟨rfl, -⟩ := List.append_inj' hw rfl
    -- The mark of the hexadecimal digits is among the characters at the end.
    have hinit : ∀ c ∈ '0' :: sign :: digits, isLiteralChar c = true := by
      refine List.forall_mem_cons.mpr ⟨by decide, List.forall_mem_cons.mpr ⟨?_, fun c hc => ?_⟩⟩
      · rcases hsign with rfl | rfl <;> decide
      · exact isLiteralChar_of_isNameChar (isNameChar_of_isHexDigit (h c (by simp [hc])))
    have hmem : sign ∈ (first ++ '0' :: sign :: digits).rtakeWhile isLiteralChar := by
      rw [List.rtakeWhile, List.reverse_append,
        List.takeWhile_append_of_pos fun c hc => hinit c (List.mem_reverse.mp hc)]
      simp
    rw [endsInDecimal, Bool.and_eq_false_iff]
    refine .inr (List.all_eq_false.mpr ⟨sign, hmem, ?_⟩)
    rcases hsign with rfl | rfl <;> decide
  | decimal hmantissa hpower =>
    have hlast := not_isMark_of_getLast? hmantissa hpower mark (by rw [← hw]; simp)
    rcases hmark with rfl | rfl
    · exact absurd rfl hlast.1
    · exact absurd rfl hlast.2

/-- **Up to the mark of an exponent**, a text is not a numeric expression. -/
theorem Expression.Derives.not_endsInDecimal {e : Expression Literal} {mark : Char}
    (h : Derives (IsWritten Literal.IsSpelled) level (text ++ [mark]) e)
    (hmark : mark = 'e' ∨ mark = 'E') : endsInDecimal text = false := by
  have hliteral : isLiteralChar mark = true := by rcases hmark with rfl | rfl <;> decide
  obtain ⟨t, init, w, heq, hw, -⟩ := h.exists_last
  have hlast : (init ++ w).getLast? = some mark := by rw [← heq, List.getLast?_concat]
  cases hw with
  | sign hbefore hc hafter =>
    have hw : IsWritten Literal.IsSpelled t _ := .sign hbefore hc hafter
    have hsign := not_isLiteralChar_of_isWritten hw (ofChar?_eq_some_iff.mp hc) init mark hlast
    exact absurd hliteral (by rw [hsign]; decide)
  | @literal before w after _ hbefore hw hafter =>
    rcases List.eq_nil_or_concat after with rfl | ⟨after, c, rfl⟩
    · obtain ⟨core, c, rfl, -⟩ := Literal.isSolid.exists_concat hw
      rw [List.append_nil, ← List.append_assoc, ← List.append_assoc] at heq
      obtain ⟨rfl, hc⟩ := List.append_inj' heq rfl
      obtain rfl : mark = c := List.head_eq_of_cons_eq hc
      exact hw.not_endsInDecimal hmark _
    · simp only [List.concat_eq_append, ← List.append_assoc, List.getLast?_concat] at hlast
      obtain rfl := Option.some.inj hlast
      have hblank := not_isLiteralChar_of_isBlank (hafter c (by simp))
      exact absurd hliteral (by rw [hblank]; decide)

/-- **An exponent with a `+` at the top level is cut**: a part of the text is not a numeric
expression. -/
theorem HasPlusExponent.exists_part (h : HasPlusExponent text) :
    ∃ part ∈ splitTopLevel '+' text, ∀ e, ¬IsExpression part e := by
  obtain ⟨before, mark, behind, rfl, hmark, hdepth, hdecimal⟩ := h
  have hparenthesis : mark ≠ '(' ∧ mark ≠ ')' ∧ mark ≠ '+' := by
    rcases hmark with rfl | rfl <;> decide
  have hdepth' : depthBehind 0 (before ++ [mark]) = 0 := by
    rw [depthBehind_append, hdepth, depthBehind_cons, depthBehind_nil,
      depthAfter_of_ne hparenthesis.1 hparenthesis.2.1]
  obtain ⟨parts, last, hsplit⟩ :
      ∃ parts last, splitFrom '+' 0 (before ++ [mark]) = parts ++ [last] :=
    ⟨_, _, (List.dropLast_append_getLast (splitFrom_ne_nil '+' 0 (before ++ [mark]))).symm⟩
  have hmem : last ∈ splitTopLevel '+' (before ++ mark :: '+' :: behind) := by
    rw [splitTopLevel, ← List.singleton_append, ← List.append_assoc,
      splitFrom_append_separator rfl hdepth', hsplit]
    simp
  refine ⟨last, hmem, fun e he => ?_⟩
  -- The part ends in the mark, as the text before the part ends in a `+`.
  have hseparator : ∀ c ∈ (parts.map (· ++ ['+'])).flatten.getLast?, c = '+' :=
    getLast?_flatten_separators parts
  have hbefore := eq_flatten_of_splitFrom hsplit
  generalize (parts.map (· ++ ['+'])).flatten = first at hseparator hbefore
  rcases List.eq_nil_or_concat last with rfl | ⟨part, c, rfl⟩
  · rw [List.append_nil] at hbefore
    exact hparenthesis.2.2 (hseparator mark (by rw [← hbefore, List.getLast?_concat]; rfl))
  · rw [List.concat_eq_append] at hbefore he
    rw [← List.append_assoc] at hbefore
    obtain ⟨rfl, hc⟩ := List.append_inj' hbefore rfl
    obtain rfl : mark = c := List.head_eq_of_cons_eq hc
    rw [endsInDecimal_append fun c hc => by rw [hseparator c hc]; decide] at hdecimal
    have hnone := Expression.Derives.not_endsInDecimal he hmark
    exact absurd hdecimal (by rw [hnone]; decide)

/-! ### The top level of a numeric expression -/

/-- **The only `+` at the top level** of a nested text are those of exponents. -/
structure HasNoPlus (text : List Char) : Prop where
  /-- The parentheses are nested. -/
  isNested : IsNested text
  /-- Without an exponent, there is no `+`. -/
  not_mem : ¬HasPlusExponent text → '+' ∉ topLevel 0 text

theorem hasNoPlus_of_shape (h : HasShape .unary text) : HasNoPlus text :=
  ⟨h.1, fun _ hmem => h.2 _ hmem (by simp)⟩

theorem hasNoPlus_literal {l : Literal} (h : IsWritten Literal.IsSpelled (.literal l) w) :
    HasNoPlus w := by
  cases h with
  | @literal before w after _ hbefore hw hafter =>
    have hbefore' := hasNoPlus_of_shape (hasShape_blanks hbefore)
    have hafter' := hasNoPlus_of_shape (hasShape_blanks hafter)
    have hlast : ∀ c ∈ before.getLast?, isLiteralChar c = false := fun c hc =>
      not_isLiteralChar_of_isBlank (hbefore c (List.mem_of_getLast? hc))
    refine ⟨hbefore'.isNested.append (hw.isNested.append hafter'.isNested), fun hplus hmem => ?_⟩
    rw [hbefore'.isNested.topLevel_append, hw.isNested.topLevel_append, List.mem_append,
      List.mem_append] at hmem
    rcases hmem with hmem | hmem | hmem
    · exact (hasShape_blanks hbefore).2 _ hmem (by simp)
    · have hexponent := hw.hasPlusExponent (mem_of_mem_topLevel hmem)
      exact hplus ((hexponent.append after).append_left hbefore'.isNested hlast)
    · exact (hasShape_blanks hafter).2 _ hmem (by simp)
  | sign _ hc _ => exact absurd (ofChar?_eq_some_iff.mp hc) (by simp [signOf?])

section Operators

variable {spells : α → List Char → Prop} {t : Token α} {left right : List Char}

/-- An operator between nested texts. -/
theorem IsNested.append_sign (hl : IsNested left) (hw : IsWritten spells t w)
    (ht : signOf? t = some c) (hc : c ≠ '(' ∧ c ≠ ')') (hr : IsNested right) :
    IsNested (left ++ (w ++ right)) := by
  have hsign : HasShape .sum w := hasShape_sign hw ht hc.1 hc.2 trivial
  exact hl.append (hsign.1.append hr)

/-- An exponent behind an operator stays at the top level. -/
theorem HasPlusExponent.append_sign (h : HasPlusExponent right) (hl : IsNested left)
    (hw : IsWritten spells t w) (ht : signOf? t = some c) (hc : c ≠ '(' ∧ c ≠ ')') :
    HasPlusExponent (left ++ (w ++ right)) := by
  have hsign : HasShape .sum w := hasShape_sign hw ht hc.1 hc.2 trivial
  rw [← List.append_assoc]
  exact h.append_left (hl.append hsign.1) (not_isLiteralChar_of_isWritten hw ht left)

/-- An operator other than `+` between texts. -/
theorem HasNoPlus.append_sign (hl : HasNoPlus left) (hw : IsWritten spells t w)
    (ht : signOf? t = some c) (hc : c ≠ '(' ∧ c ≠ ')') (hplus : c ≠ '+') (hr : HasNoPlus right) :
    HasNoPlus (left ++ (w ++ right)) := by
  have hsign : HasShape .product w := hasShape_sign hw ht hc.1 hc.2 hplus
  refine ⟨hl.isNested.append_sign hw ht hc hr.isNested, fun hexponent hmem => ?_⟩
  rw [hl.isNested.topLevel_append, hsign.1.topLevel_append, List.mem_append,
    List.mem_append] at hmem
  rcases hmem with hmem | hmem | hmem
  · exact hl.not_mem (fun h => hexponent (h.append _)) hmem
  · exact hsign.2 _ hmem rfl
  · exact hr.not_mem (fun h => hexponent (h.append_sign hl.isNested hw ht hc)) hmem

end Operators

/-- **The top level of a numeric expression**: in anything but a sum, a `+` is that of an
exponent. -/
theorem Expression.Derives.hasNoPlus {e : Expression Literal}
    (h : Derives (IsWritten Literal.IsSpelled) level text e) :
    IsNested text ∧ (level ≠ .sum → HasNoPlus text) := by
  induction h with
  | literal hw =>
    have hliteral := hasNoPlus_literal hw
    exact ⟨hliteral.isNested, fun _ => hliteral⟩
  | group hw h hw' ih =>
    have hgroup := hasNoPlus_of_shape (hasShape_parentheses hw ih.1 hw')
    exact ⟨hgroup.isNested, fun _ => hgroup⟩
  | power hl hw hr ihl ihr =>
    have hpower := (ihl.2 (by simp)).append_sign hw rfl (by decide) (by decide) (ihr.2 (by simp))
    exact ⟨hpower.isNested, fun _ => hpower⟩
  | negate hw h ih =>
    have hnone : HasNoPlus [] := hasNoPlus_of_shape (hasShape_of_forall (by simp))
    have hnegate := hnone.append_sign hw rfl (by decide) (by decide) (ih.2 (by simp))
    exact ⟨hnegate.isNested, fun _ => hnegate⟩
  | product hl ht hw hr ihl ihr =>
    obtain ⟨c, hc, hop⟩ := exists_of_productOperator? ht
    have hsign : (c ≠ '(' ∧ c ≠ ')') ∧ c ≠ '+' := by
      rcases hop with ⟨rfl, -⟩ | ⟨rfl, -⟩ | ⟨rfl, -⟩ <;> decide
    have hproduct := (ihl.2 (by simp)).append_sign hw hc hsign.1 hsign.2 (ihr.2 (by simp))
    exact ⟨hproduct.isNested, fun _ => hproduct⟩
  | sum hl ht hw hr ihl ihr =>
    obtain ⟨c, hc, hop⟩ := exists_of_sumOperator? ht
    have hsign : c ≠ '(' ∧ c ≠ ')' := by rcases hop with ⟨rfl, -⟩ | ⟨rfl, -⟩ <;> decide
    exact ⟨ihl.1.append_sign hw hc hsign ihr.1, fun hlevel => absurd rfl hlevel⟩
  | ofPrimary h ih => exact ⟨ih.1, fun _ => ih.2 (by simp)⟩
  | ofPower h ih => exact ⟨ih.1, fun _ => ih.2 (by simp)⟩
  | ofUnary h ih => exact ⟨ih.1, fun _ => ih.2 (by simp)⟩
  | ofProduct h ih => exact ⟨ih.1, fun hlevel => absurd rfl hlevel⟩

end WireCodec
