import WireCodec.Expression.Token

/-!
# Numeric expressions

An expression is built from literals by `+ - * / % ^`, by a leading `-` and by parentheses.
From the loosest to the tightest:

* a **sum** is a sequence of products joined by `+` and `-`;
* a **product** is a sequence of unaries joined by `*`, `/` and `%`;
* a **unary** is a `-` with a unary behind it, or a power;
* a **power** is a primary, possibly with a `^` and a unary behind it;
* a **primary** is a literal or a sum in parentheses.

Sums and products group to the left, powers to the right, and a `-` applies to the power behind
it. `WireCodec.Expression.parse?` reads a text that is one sum from its first to its last token.
What the numbers are does not matter to the structure, so expressions are over any type of them.
-/

namespace WireCodec

/-- **The operators that join two expressions.** -/
inductive BinaryOperator
  /-- Written `+`. -/
  | add
  /-- Written `-`. -/
  | subtract
  /-- Written `*`. -/
  | multiply
  /-- Written `/`. -/
  | divide
  /-- Written `%`. -/
  | remainder
  /-- Written `^`. -/
  | power
deriving DecidableEq, Repr

/-- **An expression** whose numbers are of type `α`. -/
inductive Expression (α : Type)
  /-- A number. -/
  | literal (value : α)
  /-- A leading `-`. -/
  | negate (operand : Expression α)
  /-- Two expressions joined by an operator. -/
  | binary (operator : BinaryOperator) (left right : Expression α)
deriving DecidableEq, Repr

namespace Expression

/-- A reader takes an expression from the start of a list of tokens. -/
abbrev TokenReader (α : Type) : Type :=
  List (Token α) → Option (Expression α × List (Token α))

variable {α : Type}

/-- The operators that join the products of a sum. -/
def sumOperator? : Token α → Option BinaryOperator
  | .plus => some .add
  | .minus => some .subtract
  | _ => none

/-- The operators that join the unaries of a product. -/
def productOperator? : Token α → Option BinaryOperator
  | .times => some .multiply
  | .slash => some .divide
  | .percent => some .remainder
  | _ => none

/-- Go on after `left` with as many operators and operands as there are, grouping to the left.
At most `count` operators are read. -/
def chainFrom (operator? : Token α → Option BinaryOperator) (operand : TokenReader α) :
    (count : Nat) → Expression α → TokenReader α
  | _, left, [] => some (left, [])
  | 0, left, tokens => some (left, tokens)
  | count + 1, left, token :: tokens =>
    match operator? token with
    | none => some (left, token :: tokens)
    | some operator =>
      match operand tokens with
      | none => none
      | some (right, rest) =>
        chainFrom operator? operand count (.binary operator left right) rest

/-- Operands joined by operators, grouping to the left. -/
def chain (operator? : Token α → Option BinaryOperator) (operand : TokenReader α) :
    TokenReader α :=
  fun tokens =>
    match operand tokens with
    | none => none
    | some (left, rest) => chainFrom operator? operand rest.length left rest

/-- A sum, given how to read a unary. -/
def sum (unary : TokenReader α) : TokenReader α :=
  chain sumOperator? (chain productOperator? unary)

/-- A primary, given how to read a unary. -/
def primary (unary : TokenReader α) : TokenReader α
  | .literal value :: rest => some (.literal value, rest)
  | .opening :: rest =>
    match sum unary rest with
    | some (e, .closing :: rest) => some (e, rest)
    | _ => none
  | _ => none

/-- A power, given how to read a unary. -/
def power (unary : TokenReader α) : TokenReader α := fun tokens =>
  match primary unary tokens with
  | some (base, .caret :: rest) =>
    match unary rest with
    | some (exponent, rest) => some (.binary .power base exponent, rest)
    | none => none
  | found => found

/-- **A unary.** Unaries within it, down to `depth`, are read in the same way; as each of them
starts at a later token, a depth of the number of tokens is enough. -/
def unary : (depth : Nat) → TokenReader α
  | 0, _ => none
  | depth + 1, .minus :: rest =>
    match unary depth rest with
    | some (e, rest) => some (.negate e, rest)
    | none => none
  | depth + 1, tokens => power (unary depth) tokens

/-- The expression that a whole list of tokens is. -/
def ofTokens? (tokens : List (Token α)) : Option (Expression α) :=
  match sum (unary tokens.length) tokens with
  | some (e, []) => some e
  | _ => none

/-- **The expression that a text is**, if it is one. -/
def parse? (text : List Char) : Option (Expression Literal) :=
  (Token.scan? text).bind ofTokens?

end Expression

end WireCodec
