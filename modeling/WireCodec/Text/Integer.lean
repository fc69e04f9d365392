/-!
# Reading natural numbers

A natural number is written in digits of some base, with at most a `+` before them, and is not
larger than a given limit. The digits are looked at from the left, so of two faults the first one
counts.
-/

namespace WireCodec.Text

/-- **Why a text is no natural number.** -/
inductive IntegerError
  /-- There is nothing to read. -/
  | empty
  /-- There is a character that is no digit. -/
  | invalidDigit
  /-- The number is above the limit. -/
  | tooLarge
deriving DecidableEq, Repr

/-- The wording of the error. -/
def IntegerError.message : IntegerError → String
  | empty => "cannot parse integer from empty string"
  | invalidDigit => "invalid digit found in string"
  | tooLarge => "number too large to fit in target type"

/-- The value of a digit in a base of at most sixteen. -/
def digitValue? (base : Nat) (c : Char) : Option Nat :=
  let value? :=
    if '0' ≤ c ∧ c ≤ '9' then some (c.toNat - '0'.toNat)
    else if 'a' ≤ c ∧ c ≤ 'f' then some (c.toNat - 'a'.toNat + 10)
    else if 'A' ≤ c ∧ c ≤ 'F' then some (c.toNat - 'A'.toNat + 10)
    else none
  value?.filter (· < base)

/-- Put one more digit behind a number. -/
def addDigit (base limit n : Nat) (c : Char) : Except IntegerError Nat :=
  match digitValue? base c with
  | none => .error .invalidDigit
  | some value => if limit < n * base + value then .error .tooLarge else .ok (n * base + value)

/-- A text without the `+` before its digits. A `+` without digits is kept. -/
def dropPlus : List Char → List Char
  | '+' :: c :: text => c :: text
  | text => text

/-- **The natural number that a text is.** -/
def parseNatural (base limit : Nat) (text : List Char) : Except IntegerError Nat :=
  if text.isEmpty then .error .empty else (dropPlus text).foldlM (addDigit base limit) 0

end WireCodec.Text
