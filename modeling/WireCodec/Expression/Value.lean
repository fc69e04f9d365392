import WireCodec.Expression.Tree
import WireCodec.Number

/-!
# The value of a numeric expression

An expression is evaluated in some type of numbers, operands from left to right. This fails for a
hexadecimal literal that does not fit into a 64-bit word, and the leftmost of them is named. A
text has a value if it is an expression, evaluates, and the value is finite.

Texts without a value in this sense, in particular all texts with names in them, are what lengths
take for symbols.
-/

namespace WireCodec

/-- **Why a text has no value.** -/
inductive EvaluationError
  /-- The text is not an expression. -/
  | notAnExpression
  /-- A hexadecimal literal does not fit into a word. -/
  | literalTooLarge (text : List Char)
  /-- The value is infinite or undefined. -/
  | notFinite
deriving DecidableEq, Repr

/-- The wording of the error. -/
def EvaluationError.message : EvaluationError → String
  | notAnExpression => "Parse error"
  | literalTooLarge text => "Invalid literal: " ++ String.ofList text
  | notFinite => "Result is not finite"

variable {α : Type} [Number α]

/-- The number that an operator makes of two numbers. -/
def BinaryOperator.apply : BinaryOperator → α → α → α
  | add, a, b => a + b
  | subtract, a, b => a - b
  | multiply, a, b => a * b
  | divide, a, b => a / b
  | remainder, a, b => Number.remainder a b
  | power, a, b => Number.power a b

/-- The number that a literal stands for. -/
def Literal.value : Literal → Except EvaluationError α
  | hexadecimal text =>
    if hexLiteralValue text < 2 ^ 64 then .ok (Number.ofInt (hexLiteralValue text))
    else .error (.literalTooLarge text)
  | decimal d => .ok (Number.ofDecimal d)

namespace Expression

/-- The number that an expression stands for. -/
def value : Expression Literal → Except EvaluationError α
  | literal l => l.value
  | negate e => do return -(← e.value)
  | binary operator left right => do
    let a ← left.value
    let b ← right.value
    return operator.apply a b

end Expression

/-- **The value of a text.** -/
def evaluate (text : List Char) : Except EvaluationError α :=
  match Expression.parse? text with
  | none => .error .notAnExpression
  | some e =>
    match (e.value : Except EvaluationError α) with
    | .ok a => if Number.isFinite a then .ok a else .error .notFinite
    | .error error => .error error

/-- The value of a text, if it has one. -/
def evaluate? (text : List Char) : Option α :=
  (evaluate text).toOption

end WireCodec
