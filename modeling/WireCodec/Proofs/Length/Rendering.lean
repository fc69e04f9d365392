import WireCodec.Length.Sum
import WireCodec.Proofs.Expression.Digits
import WireCodec.Proofs.Length.Pieces

/-!
# Texts of terms are formulas

What a term of a length is worth is its coefficient times the worth of its symbol
(`WireCodec.LengthTerm.worth`). Its text is a formula of the same worth
(`WireCodec.LengthTerm.isWorth_render`), and so is the text of several terms
(`WireCodec.LengthSum.isWorth_renderTerms`).

The coefficient before a symbol binds to the first factor of the symbol only. So the symbol is put
in parentheses if it is a sum or has a quotient in it; of a product of other factors, it does not
matter which one is multiplied first.
-/

namespace WireCodec

open Token Expression

variable {assignment : Symbol → ℤ} {level : Level} {text left right : List Char} {a b q : ℚ}

/-! ### Integers -/

theorem isDigit_of_mem_natText (n : ℕ) : ∀ d ∈ Decimal.natText n, d.isDigit = true :=
  fun _ hd => Nat.isDigit_of_mem_toDigits (by decide) (by decide) hd

theorem digitsValue_natText (n : ℕ) : digitsValue 10 (Decimal.natText n) = n := by
  simpa [Decimal.natText] using digitsValue_toDigits (by decide : 1 < 10) (f := id) (by decide) n

theorem Operand.worth_decimal (n : ℕ) :
    (Operand.literal (.decimal ⟨n, 0⟩)).worth assignment = n := by
  change (n : ℚ) * 10 ^ (0 : ℤ) = n
  rw [zpow_zero, mul_one]

namespace IsWorth

/-- Digits are worth the number that they spell. -/
theorem digits (hne : text ≠ []) (h : ∀ d ∈ text, d.isDigit = true) :
    IsWorth assignment .unary text (digitsValue 10 text : ℕ) := by
  rw [← Operand.worth_decimal]
  exact operand (.decimal hne h)

theorem natText (n : ℕ) : IsWorth assignment .unary (Decimal.natText n) n := by
  have : IsWorth assignment .unary (Decimal.natText n) (digitsValue 10 (Decimal.natText n) : ℕ) :=
    digits Nat.toDigits_ne_nil (isDigit_of_mem_natText n)
  rwa [digitsValue_natText] at this

/-- **The text of an integer** is a formula. -/
theorem intText (n : ℤ) : IsWorth assignment .unary (Decimal.intText n) n := by
  unfold Decimal.intText
  split
  · have : IsWorth assignment .unary ('-' :: Decimal.natText n.natAbs) (-n.natAbs) :=
      (IsWorth.natText _).negate
    rwa [show (-(n.natAbs : ℚ)) = n by
      rw [← Int.cast_natCast, ← Int.cast_neg]
      congr 1
      omega] at this
  · have : IsWorth assignment .unary (Decimal.natText n.natAbs) n.natAbs := IsWorth.natText _
    rwa [show (n.natAbs : ℚ) = n by
      rw [← Int.cast_natCast]
      congr 1
      omega] at this

/-- **The text of a number** is a formula. -/
theorem numberText (q : ℚ) : IsWorth assignment .product (Number.text q) q := by
  have hnumerator : IsWorth assignment .product (Decimal.intText q.num) q.num :=
    (IsWorth.intText _).ofUnary
  change IsWorth assignment .product (rationalText q) q
  rw [rationalText]
  split
  · rename_i hden
    rwa [(Rat.den_eq_one_iff q).mp hden] at hnumerator
  · have hden : ((q.den : ℕ) : ℚ) ≠ 0 := by simp
    have := hnumerator.product (rfl : productOperator? Token.slash = some .divide)
      (isWritten_sign (c := '/') rfl) (IsWorth.natText q.den) hden
    rwa [BinaryOperator.apply, Rat.num_div_den] at this

/-- Two formulas with a `+` between them are worth their sum, whatever is at their top level. -/
theorem add (hl : IsWorth assignment .sum left a) (hr : IsWorth assignment .sum right b) :
    IsWorth assignment .sum (left ++ '+' :: right) (a + b) := by
  induction hr using IsWorth.sum_induction with
  | ofProduct right b hr =>
    exact hl.sum (rfl : sumOperator? Token.plus = some .add) (isWritten_sign rfl) hr
  | sum right w last b c t op hr ht hw hlast ih =>
    -- The new sum stands before the last product as the old one has, so it groups to the left.
    have := ih.sum ht hw hlast
    rw [List.append_assoc, List.cons_append] at this
    convert this using 1
    obtain ⟨-, -, ⟨-, rfl⟩ | ⟨-, rfl⟩⟩ := exists_of_sumOperator? ht
    · exact (add_assoc a b c).symm
    · exact (add_sub_assoc a b c).symm

end IsWorth

theorem isProduct_of_hasTopLevelOperator (h : hasTopLevelOperator text = false) :
    isProduct text = true := by
  unfold isProduct
  split
  · exact absurd h (by simp [hasTopLevelOperator, hasOperatorFrom])
  · exact absurd h (by simp [hasTopLevelOperator, hasOperatorFrom])
  · rw [h, Bool.not_false]

/-! ### Terms -/

namespace LengthTerm

variable {t : LengthTerm ℚ}

/-- **What a term is worth.** -/
noncomputable def worth (assignment : Symbol → ℤ) (t : LengthTerm ℚ) : ℚ :=
  match t.symbol? with
  | none => t.coefficient
  | some symbol => t.coefficient * textWorth assignment symbol

/-- **The term may be put into a formula**: its coefficient is an integer if it stands before a
symbol, and the symbol is a formula. -/
def IsSound (assignment : Symbol → ℤ) (t : LengthTerm ℚ) : Prop :=
  ∀ symbol, t.symbol? = some symbol →
    HasWorth assignment symbol ∧ ∃ n : ℤ, t.coefficient = n

@[simp] theorem worth_constant (a : ℚ) : (constant a).worth assignment = a := rfl

@[simp] theorem worth_symbolic (a : ℚ) (symbol : List Char) :
    (symbolic a symbol).worth assignment = a * textWorth assignment symbol := rfl

theorem isSound_constant (a : ℚ) : (constant a).IsSound assignment := by
  intro symbol hsymbol
  exact absurd hsymbol (by simp [constant])

theorem isSound_symbolic {symbol : List Char} {n : ℤ} (hworth : HasWorth assignment symbol)
    (hn : a = n) : (symbolic a symbol).IsSound assignment := by
  intro symbol' hsymbol
  obtain rfl := Option.some.inj hsymbol
  exact ⟨hworth, n, hn⟩

/-- **The text of a term** is a formula with the worth of the term, if the term has a symbol. -/
theorem isWorth_render {symbol : List Char} (hworth : HasWorth assignment symbol)
    (hsymbol : t.symbol? = some symbol) :
    IsWorth assignment .sum t.render (t.worth assignment) := by
  rw [worth, render, hsymbol]
  simp only
  split
  · rename_i hone
    rwa [Number.isOne_rat_iff.mp hone, one_mul]
  · have hcoefficient : IsWorth assignment .product (Number.text t.coefficient) t.coefficient :=
      IsWorth.numberText _
    -- A symbol in parentheses is a factor of its own; any other is a product of plain factors.
    split
    · have := (hcoefficient.mul (IsWorth.isWritten_sign (c := '*') rfl) hworth.group).toSum
      simpa using this
    · rename_i hoperator
      obtain ⟨hproduct, hquotient⟩ := IsWorth.product_of_isProduct hworth
        (isProduct_of_hasTopLevelOperator (by simpa using hoperator))
      exact (hcoefficient.times hproduct hquotient.2).toSum

theorem isWorth_render_constant (n : ℤ) :
    IsWorth assignment .sum (constant (n : ℚ)).render ((constant (n : ℚ)).worth assignment) := by
  change IsWorth assignment .sum (Number.text (n : ℚ)) n
  rw [Number.text_intCast]
  exact (IsWorth.intText n).toSum

end LengthTerm

namespace LengthSum

/-- What several terms are worth together. -/
noncomputable def termsWorth (assignment : Symbol → ℤ) (terms : List (LengthTerm ℚ)) : ℚ :=
  (terms.map (LengthTerm.worth assignment)).sum

/-- **The text of several terms** is a formula if those of all of them are. -/
theorem isWorth_renderTerms {terms : List (LengthTerm ℚ)} (hne : terms ≠ [])
    (h : ∀ t ∈ terms, IsWorth assignment .sum t.render (t.worth assignment)) :
    IsWorth assignment .sum (renderTerms terms) (termsWorth assignment terms) := by
  induction terms with
  | nil => exact absurd rfl hne
  | cons t terms ih =>
    obtain ⟨ht, hothers⟩ := List.forall_mem_cons.mp h
    cases terms with
    | nil => simpa [renderTerms, termsWorth] using ht
    | cons t' terms =>
      have := ht.add (ih (by simp) hothers)
      simpa [renderTerms, termsWorth, List.intercalate_cons_cons] using this

end LengthSum

end WireCodec
