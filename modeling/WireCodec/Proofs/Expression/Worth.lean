import WireCodec.Expression.Value
import WireCodec.Proofs.Expression.Formula
import WireCodec.Proofs.Number.Rational

/-!
# What a formula is worth

With an integer for every symbol, a formula is worth a rational number, if it is defined: no
divisor may be zero, and every exponent has to be a natural number. `WireCodec.IsWorth` is this
relation between texts and numbers; as a text is at most one formula, it is worth at most one
number (`WireCodec.IsWorth.unique`).

A text that is evaluated by itself is worth what it is evaluated to, whatever the symbols stand for
(`WireCodec.IsWorth.eq_of_evaluate?`).
-/

namespace WireCodec

open Token

/-- What a literal is worth. -/
def Literal.worth : Literal → ℚ
  | hexadecimal text => hexLiteralValue text
  | decimal d => Number.ofDecimal d

/-- What an operand is worth. -/
def Operand.worth (assignment : Symbol → ℤ) : Operand → ℚ
  | literal l => l.worth
  | symbol s => assignment s

/-- **The operator is defined for this number on its right.** -/
def BinaryOperator.Accepts : BinaryOperator → ℚ → Prop
  | divide, b | remainder, b => b ≠ 0
  | power, b => ∃ n : ℕ, b = n
  | _, _ => True

namespace Expression

variable {α β : Type}

/-- What an expression is worth, given what its numbers are worth. -/
def worth (number : α → ℚ) : Expression α → ℚ
  | literal a => number a
  | negate e => -worth number e
  | binary op left right => op.apply (worth number left) (worth number right)

/-- **The expression is defined**: all of its operators are defined for the numbers they get. -/
def IsDefined (number : α → ℚ) : Expression α → Prop
  | literal _ => True
  | negate e => IsDefined number e
  | binary op left right =>
    IsDefined number left ∧ IsDefined number right ∧ op.Accepts (worth number right)

/-- An expression that is evaluated is worth its value. -/
theorem worth_of_value {e : Expression Literal} {q : ℚ} (h : e.value = .ok q) :
    e.worth Literal.worth = q := by
  induction e generalizing q with
  | literal l =>
    cases l with
    | hexadecimal text =>
      rw [value, Literal.value] at h
      split at h
      · exact Except.ok.inj h
      · exact absurd h (by simp)
    | decimal d => exact Except.ok.inj h
  | negate e ih =>
    rw [value] at h
    cases he : (e.value : Except EvaluationError ℚ) with
    | error error => simp [he] at h
    | ok a =>
      rw [he] at h
      rw [worth, ih he]
      exact Except.ok.inj h
  | binary op left right ihl ihr =>
    rw [value] at h
    cases hl : (left.value : Except EvaluationError ℚ) with
    | error error => simp [hl, bind, Except.bind] at h
    | ok a =>
      cases hr : (right.value : Except EvaluationError ℚ) with
      | error error => simp [hl, hr, bind, Except.bind] at h
      | ok b =>
        rw [hl, hr] at h
        rw [worth, ihl hl, ihr hr]
        exact Except.ok.inj h

/-- Turning numbers into others of the same worth keeps the worth of an expression. -/
theorem worth_of_map? {f : α → Option β} {number : α → ℚ} {number' : β → ℚ}
    (hf : ∀ a b, f a = some b → number' b = number a) {e : Expression α} {e' : Expression β}
    (h : e.map? f = some e') : e'.worth number' = e.worth number := by
  induction e generalizing e' with
  | literal a =>
    obtain ⟨b, hb, rfl⟩ := Option.map_eq_some_iff.mp h
    exact hf a b hb
  | negate e ih =>
    obtain ⟨e', he', rfl⟩ := Option.map_eq_some_iff.mp h
    rw [worth, worth, ih he']
  | binary op left right ihl ihr =>
    obtain ⟨l, hl, h⟩ := Option.bind_eq_some_iff.mp h
    obtain ⟨r, hr, h⟩ := Option.bind_eq_some_iff.mp h
    obtain rfl := Option.some.inj h
    rw [worth, worth, ihl hl, ihr hr]

end Expression

open Expression

/-- **The text is a formula of a level, defined, and worth this number**, given the integers that
its symbols stand for. -/
def IsWorth (assignment : Symbol → ℤ) (level : Level) (text : List Char) (q : ℚ) : Prop :=
  ∃ e, Derives (IsWritten Operand.IsSpelled) level text e ∧
    e.IsDefined (Operand.worth assignment) ∧ e.worth (Operand.worth assignment) = q

namespace IsWorth

variable {assignment : Symbol → ℤ} {level : Level} {text left right w : List Char} {a b q : ℚ}
  {t : Token Operand} {op : BinaryOperator}

/-- **A text is worth one number at most.** -/
theorem unique (h : IsWorth assignment .sum text a) (h' : IsWorth assignment .sum text b) :
    a = b := by
  obtain ⟨e, he, -, rfl⟩ := h
  obtain ⟨e', he', -, rfl⟩ := h'
  rw [IsFormula.unique he he']

/-- **A text is worth what it is evaluated to.** -/
theorem eq_of_evaluate? (h : IsWorth assignment .sum text a) (hq : evaluate? text = some q) :
    q = a := by
  obtain ⟨e, he, -, rfl⟩ := h
  rw [evaluate?, evaluate] at hq
  cases hparse : parse? text with
  | none => simp [hparse, Except.toOption] at hq
  | some e' =>
    rw [hparse] at hq
    cases hvalue : (e'.value : Except EvaluationError ℚ) with
    | error error => simp [hvalue, Except.toOption] at hq
    | ok a =>
      obtain rfl : a = q := by simpa [hvalue, Except.toOption] using hq
      -- All operands are literals, so the symbols do not matter.
      rw [← worth_of_value hvalue]
      refine worth_of_map? (fun a l hal => ?_) (IsFormula.map?_of_parse? he hparse)
      cases a with
      | literal l' => exact congrArg Literal.worth (Option.some.inj hal).symm
      | symbol s => exact absurd hal (by simp [Operand.literal?])

theorem toSum (h : IsWorth assignment level text q) : IsWorth assignment .sum text q := by
  obtain ⟨e, he, hdefined, hworth⟩ := h
  exact ⟨e, he.toSum, hdefined, hworth⟩

theorem ofUnary (h : IsWorth assignment .unary text q) : IsWorth assignment .product text q := by
  obtain ⟨e, he, hdefined, hworth⟩ := h
  exact ⟨e, .ofUnary he, hdefined, hworth⟩

/-! ### Putting formulas together -/

theorem isWritten_sign {c : Char} (h : ofChar? c = some t) :
    IsWritten Operand.IsSpelled t [c] := by
  have hnone : ∀ b ∈ ([] : List Char), isBlank b = true := by simp
  exact IsWritten.sign hnone h hnone

theorem operand {a : Operand} (h : a.IsSpelled w) :
    IsWorth assignment .unary w (a.worth assignment) := by
  have hnone : ∀ b ∈ ([] : List Char), isBlank b = true := by simp
  have hwritten := IsWritten.literal hnone h hnone
  rw [List.nil_append, List.append_nil] at hwritten
  exact ⟨_, .ofPower (.ofPrimary (.literal hwritten)), trivial, rfl⟩

theorem name (h : IsName text) : IsWorth assignment .unary text (assignment (.name text)) :=
  operand (.name h)

theorem sum (hl : IsWorth assignment .sum left a) (ht : sumOperator? t = some op)
    (hw : IsWritten Operand.IsSpelled t w) (hr : IsWorth assignment .product right b) :
    IsWorth assignment .sum (left ++ (w ++ right)) (op.apply a b) := by
  obtain ⟨el, hel, hdl, rfl⟩ := hl
  obtain ⟨er, her, hdr, rfl⟩ := hr
  refine ⟨_, .sum hel ht hw her, ⟨hdl, hdr, ?_⟩, rfl⟩
  cases t <;> simp [sumOperator?] at ht <;> subst ht <;> trivial

theorem product (hl : IsWorth assignment .product left a) (ht : productOperator? t = some op)
    (hw : IsWritten Operand.IsSpelled t w) (hr : IsWorth assignment .unary right b)
    (hop : op.Accepts b) :
    IsWorth assignment .product (left ++ (w ++ right)) (op.apply a b) := by
  obtain ⟨el, hel, hdl, rfl⟩ := hl
  obtain ⟨er, her, hdr, rfl⟩ := hr
  exact ⟨_, .product hel ht hw her, ⟨hdl, hdr, hop⟩, rfl⟩

theorem negate (h : IsWorth assignment .unary text q) :
    IsWorth assignment .unary ('-' :: text) (-q) := by
  obtain ⟨e, he, hdefined, rfl⟩ := h
  exact ⟨_, .negate (isWritten_sign rfl) he, hdefined, rfl⟩

theorem group (h : IsWorth assignment .sum text q) :
    IsWorth assignment .unary ('(' :: (text ++ [')'])) q := by
  obtain ⟨e, he, hdefined, hworth⟩ := h
  exact ⟨e, .ofPower (.ofPrimary (.group (isWritten_sign rfl) he (isWritten_sign rfl))), hdefined,
    hworth⟩

/-! ### Taking formulas apart -/

/-- **Induction on a sum**, from its first product on. -/
theorem sum_induction {motive : ∀ text q, IsWorth assignment .sum text q → Prop}
    (ofProduct : ∀ text q (h : IsWorth assignment .product text q), motive text q h.toSum)
    (sum : ∀ left w right a b t op (hl : IsWorth assignment .sum left a)
      (ht : sumOperator? t = some op) (hw : IsWritten Operand.IsSpelled t w)
      (hr : IsWorth assignment .product right b), motive left a hl →
      motive (left ++ (w ++ right)) (op.apply a b) (hl.sum ht hw hr))
    (h : IsWorth assignment .sum text q) : motive text q h := by
  have hkey : ∀ {level text e}, Derives (IsWritten Operand.IsSpelled) level text e →
      level = .sum → e.IsDefined (Operand.worth assignment) →
      ∀ h, motive text (e.worth (Operand.worth assignment)) h := by
    intro level text e he hlevel hdefined _
    induction he with
    | sum hl ht hw hr ihl =>
      obtain ⟨hdl, hdr, -⟩ := hdefined
      exact sum _ _ _ _ _ _ _ ⟨_, hl, hdl, rfl⟩ ht hw ⟨_, hr, hdr, rfl⟩ (ihl hlevel hdl _)
    | ofProduct h => exact ofProduct _ _ ⟨_, h, hdefined, rfl⟩
    | _ => exact absurd hlevel (by simp)
  obtain ⟨e, he, hdefined, rfl⟩ := h
  exact hkey he rfl hdefined _

/-- **Induction on a product**, from its first unary on. -/
theorem product_induction {motive : ∀ text q, IsWorth assignment .product text q → Prop}
    (ofUnary : ∀ text q (h : IsWorth assignment .unary text q), motive text q h.ofUnary)
    (product : ∀ left w right a b t op (hl : IsWorth assignment .product left a)
      (ht : productOperator? t = some op) (hw : IsWritten Operand.IsSpelled t w)
      (hr : IsWorth assignment .unary right b) (hop : op.Accepts b), motive left a hl →
      motive (left ++ (w ++ right)) (op.apply a b) (hl.product ht hw hr hop))
    (h : IsWorth assignment .product text q) : motive text q h := by
  have hkey : ∀ {level text e}, Derives (IsWritten Operand.IsSpelled) level text e →
      level = .product → e.IsDefined (Operand.worth assignment) →
      ∀ h, motive text (e.worth (Operand.worth assignment)) h := by
    intro level text e he hlevel hdefined _
    induction he with
    | product hl ht hw hr ihl =>
      obtain ⟨hdl, hdr, hop⟩ := hdefined
      exact product _ _ _ _ _ _ _ ⟨_, hl, hdl, rfl⟩ ht hw ⟨_, hr, hdr, rfl⟩ hop (ihl hlevel hdl _)
    | ofUnary h => exact ofUnary _ _ ⟨_, h, hdefined, rfl⟩
    | _ => exact absurd hlevel (by simp)
  obtain ⟨e, he, hdefined, rfl⟩ := h
  exact hkey he rfl hdefined _

end IsWorth

end WireCodec
