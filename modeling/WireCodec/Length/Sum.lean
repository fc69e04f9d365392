import WireCodec.Length.Term

/-!
# Lengths as sums of terms

A `WireCodec.LengthSum` is a list of terms, and appending terms is all that building one does.
**Folding** it brings like terms together: the coefficients of each symbol are added up, symbols
with a zero coefficient are dropped, and the constants become one constant, rounded to an integer
and left out if it is zero, behind the symbols (`WireCodec.LengthSum.folded`). Terms with
different symbols are never brought together, even if the symbols mean the same: the result may be
less simple than it could be.

Multiplying by a count works on the folded sum. A constant and a single symbol are multiplied
out; any other sum is put in parentheses behind the count and read again.
-/

namespace WireCodec

/-- The text of a product of two texts. A count that is blank or `1` changes nothing, and the
second factor gets parentheses if there is one of `+`, `-` and `/` in it. -/
def productText (count factor : List Char) : List Char :=
  let count := Text.trim count
  let factor := Text.trim factor
  if factor.isEmpty || count.isEmpty || count == ['1'] then factor
  else if factor.any (fun c => c == '+' || c == '-' || c == '/') then
    count ++ "*(".toList ++ factor ++ [')']
  else count ++ '*' :: factor

/-- **A sum of terms.** -/
structure LengthSum (α : Type) where
  /-- The terms, in the order in which they were added. -/
  terms : List (LengthTerm α) := []
deriving DecidableEq, Repr

namespace LengthSum

variable {α : Type} [Number α]

/-! ### Building sums -/

/-- **The terms of a text**: a constant if the text as a whole has a value, and otherwise the
terms of its parts between the `+` signs at its top level. -/
def termsOf (source : List Char) : List (LengthTerm α) :=
  match (evaluate? source : Option α) with
  | some value => [.constant value]
  | none => (splitTopLevel '+' source).filterMap LengthTerm.parse?

/-- Append the terms of a text. -/
def add (s : LengthSum α) (source : List Char) : LengthSum α :=
  ⟨s.terms ++ termsOf source⟩

/-- The sum that a text is. -/
def parse (source : List Char) : LengthSum α :=
  (⟨[]⟩ : LengthSum α).add source

/-- Append a constant. -/
def addConstant (s : LengthSum α) (value : Int) : LengthSum α :=
  ⟨s.terms ++ [.constant (Number.ofInt value)]⟩

/-- Append the terms of another sum. -/
def addSum (s other : LengthSum α) : LengthSum α :=
  ⟨s.terms ++ other.terms⟩

/-! ### Folding -/

/-- There are no terms. -/
def isEmpty (s : LengthSum α) : Bool :=
  s.terms.isEmpty

/-- No term has a symbol. -/
def isConstant (s : LengthSum α) : Bool :=
  s.terms.all LengthTerm.isConstant

/-- The coefficients added up, in the order of the terms. -/
def total (terms : List (LengthTerm α)) : α :=
  terms.foldl (fun sum t => sum + t.coefficient) (Number.ofInt 0)

/-- **The value of a sum without symbols**, rounded to an integer. -/
def value? (s : LengthSum α) : Option Int :=
  if s.isConstant then some (Number.toInt (Number.round (total s.terms))) else none

/-- Add a coefficient to that of the term with the symbol, or put a new term behind the others. -/
def mergeSymbol (coefficient : α) (symbol : List Char) :
    List (LengthTerm α) → List (LengthTerm α)
  | [] => [.symbolic coefficient symbol]
  | t :: terms =>
    if t.symbol? = some symbol then { t with coefficient := t.coefficient + coefficient } :: terms
    else t :: mergeSymbol coefficient symbol terms

/-- Merge a term into a list of symbols with their coefficients. A constant is left out. -/
def mergeTerm (symbols : List (LengthTerm α)) (t : LengthTerm α) : List (LengthTerm α) :=
  match t.symbol? with
  | none => symbols
  | some symbol => mergeSymbol t.coefficient symbol symbols

/-- The symbols of a sum with their coefficients added up, in the order in which they first
occur. -/
def symbolTerms (s : LengthSum α) : List (LengthTerm α) :=
  s.terms.foldl mergeTerm []

/-- The constants of a sum added up and rounded to an integer. -/
def constantPart (s : LengthSum α) : α :=
  Number.round (total (s.terms.filter LengthTerm.isConstant))

/-- **The folded terms**: the symbols with a coefficient other than zero, and then the constant if
it is other than zero. -/
def folded (s : LengthSum α) : List (LengthTerm α) :=
  s.symbolTerms.filter (fun t => !Number.isZero t.coefficient) ++
    if Number.isZero s.constantPart then [] else [.constant s.constantPart]

/-- Folded terms with an integer taken away from the constant at their end, which is put there or
dropped as need be. -/
def takeAway (minus : Int) (terms : List (LengthTerm α)) : List (LengthTerm α) :=
  let changed : List (LengthTerm α) :=
    match terms.getLast? with
    | some last =>
      if last.isConstant then
        terms.dropLast ++ [.constant (Number.round last.coefficient - Number.ofInt minus)]
      else terms ++ [.constant (Number.ofInt (-minus))]
    | none => [.constant (Number.ofInt (-minus))]
  changed.filter fun t => !t.isConstant || !Number.isZero (Number.round t.coefficient)

/-! ### Texts -/

/-- The texts of terms, joined by `+`. -/
def renderTerms (terms : List (LengthTerm α)) : List Char :=
  ['+'].intercalate (terms.map LengthTerm.render)

/-- The text of a sum as it stands. -/
def raw (s : LengthSum α) : List Char :=
  renderTerms s.terms

/-- **The text of the folded sum less an integer.** What is worth zero is written `0` with
`keepZero`, and not at all without. -/
def foldedTextLess (s : LengthSum α) (keepZero : Bool) (minus : Int) : List Char :=
  match s.value? with
  | some value =>
    if value - minus = 0 ∧ !keepZero then [] else Decimal.intText (value - minus)
  | none =>
    let terms := if minus = 0 then s.folded else takeAway minus s.folded
    let text := renderTerms terms
    if text.isEmpty && keepZero then ['0'] else text

/-- The text of the folded sum. -/
def foldedText (s : LengthSum α) (keepZero : Bool) : List Char :=
  s.foldedTextLess keepZero 0

/-- The text of the folded sum less one: the last index of an array that is counted from zero. -/
def lastIndexText (s : LengthSum α) : List Char :=
  s.foldedTextLess true 1

/-! ### Products -/

/-- **A sum multiplied by a count.** -/
def times (s : LengthSum α) (count : List Char) : LengthSum α :=
  let count := Text.trim count
  if count.isEmpty || count == ['1'] || s.isEmpty then s
  else
    let factor? : Option α := evaluate? count
    match s.value? with
    | some value =>
      if value = 0 then ⟨[]⟩
      else
        match factor? with
        | some factor => ⟨[.constant (Number.ofInt value * factor)]⟩
        | none => ⟨[.symbolic (Number.ofInt value) count]⟩
    | none =>
      match s.folded with
      | [⟨coefficient, some symbol⟩] =>
        match factor? with
        | some factor => ⟨[.symbolic (coefficient * factor) symbol]⟩
        | none => ⟨[.symbolic coefficient (productText count symbol)]⟩
      | _ => parse (productText count (s.foldedText false))

end LengthSum

end WireCodec
