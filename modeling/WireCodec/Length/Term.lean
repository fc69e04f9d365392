import WireCodec.Expression.Value
import WireCodec.Length.TopLevel
import WireCodec.Text.Blank

/-!
# Terms of a length

The length of a structure is a sum of **terms**: constants, and symbols with a coefficient. A
symbol is any text without a value of its own, such as the name of a count. It is not looked into:
two symbols are the same if their texts are.

In `coefficient*symbol` the coefficient is the part before the first `*` at the top level, and
only if it is a whole number and the text is a plain product. A text with another operator at its
top level is a symbol as a whole, with the coefficient one.
-/

namespace WireCodec

/-- **A summand of a length.** -/
structure LengthTerm (α : Type) where
  /-- The constant, or the factor of the symbol. -/
  coefficient : α
  /-- The symbol, if the term has one. -/
  symbol? : Option (List Char)
deriving DecidableEq, Repr

namespace LengthTerm

variable {α : Type} [Number α]

/-- A term without a symbol. -/
def constant (value : α) : LengthTerm α := ⟨value, none⟩

/-- A symbol with a coefficient. -/
def symbolic (coefficient : α) (symbol : List Char) : LengthTerm α := ⟨coefficient, some symbol⟩

/-- The term has no symbol. -/
def isConstant (t : LengthTerm α) : Bool := t.symbol?.isNone

/-- The term `coefficient*symbol` that a text is, if it is a plain product that starts with a whole
number. -/
def ofProduct? (text : List Char) : Option (LengthTerm α) :=
  if isProduct text then
    match findTopLevel? '*' text with
    | none => none
    | some place =>
      let symbol := Text.trim (text.drop (place + 1))
      match (evaluate? (Text.trim (text.take place)) : Option α) with
      | none => none
      | some c =>
        if Number.isIntegral c && !symbol.isEmpty then some (symbolic c symbol) else none
  else none

/-- **The term that a text is**, none if the text is blank: a constant if it has a value, a
coefficient with a symbol if it is such a product, and a symbol otherwise. -/
def parse? (text : List Char) : Option (LengthTerm α) :=
  let text := Text.trim text
  if text.isEmpty then none
  else
    match (evaluate? text : Option α) with
    | some value => some (constant value)
    | none => some ((ofProduct? text).getD (symbolic (Number.ofInt 1) text))

/-- **The text of a term.** A coefficient of one is left out, and a symbol with an operator at its
top level is put in parentheses behind any other. -/
def render (t : LengthTerm α) : List Char :=
  match t.symbol? with
  | none => Number.text t.coefficient
  | some symbol =>
    if Number.isOne t.coefficient then symbol
    else if hasTopLevelOperator symbol then
      Number.text t.coefficient ++ "*(".toList ++ symbol ++ [')']
    else Number.text t.coefficient ++ '*' :: symbol

end LengthTerm

end WireCodec
