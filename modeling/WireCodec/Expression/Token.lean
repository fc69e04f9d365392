import WireCodec.Decimal

/-!
# Tokens of numeric expressions

The text of an expression is cut into **tokens**: literals, operators and parentheses, with
blanks, tabs and line ends allowed between them but not inside. A literal is as long as it can
be. It is hexadecimal, `0x` or `0X` with hexadecimal digits behind it, or decimal: digits with a
point before, among or behind them, and possibly an exponent. Where there are no digits behind the
`0x` or in the exponent, the literal ends before it.

`WireCodec.Token.scan?` answers `none` for a text with anything else in it, a name for instance.
How to read a literal is the only thing it knows about them, so `WireCodec.Token.scanWith?` leaves
it open.
-/

namespace WireCodec

/-- **A number as it stands in an expression.** -/
inductive Literal
  /-- A hexadecimal number, kept as it is written. -/
  | hexadecimal (text : List Char)
  /-- A decimal number. -/
  | decimal (value : Decimal)
deriving DecidableEq, Repr

/-- **A token of an expression** whose numbers are of type `α`. -/
inductive Token (α : Type)
  /-- A number. -/
  | literal (value : α)
  /-- The sign `+`. -/
  | plus
  /-- The sign `-`. -/
  | minus
  /-- The sign `*`. -/
  | times
  /-- The sign `/`. -/
  | slash
  /-- The sign `%`. -/
  | percent
  /-- The sign `^`. -/
  | caret
  /-- An opening parenthesis. -/
  | opening
  /-- A closing parenthesis. -/
  | closing
deriving DecidableEq, Repr

/-! ### Digits -/

/-- The characters `0` to `9`, `a` to `f` and `A` to `F`. -/
def isHexDigit (c : Char) : Bool :=
  c.isDigit || ('a' ≤ c && c ≤ 'f') || ('A' ≤ c && c ≤ 'F')

/-- The value of a hexadecimal digit. -/
def hexDigitValue (c : Char) : Nat :=
  if c.isDigit then c.toNat - '0'.toNat
  else if 'a' ≤ c then c.toNat - 'a'.toNat + 10
  else c.toNat - 'A'.toNat + 10

/-- The number that digits spell in a base. -/
def digitsValue (base : Nat) (digits : List Char) : Nat :=
  digits.foldl (fun n c => n * base + hexDigitValue c) 0

/-- The value of a hexadecimal literal. -/
def hexLiteralValue (text : List Char) : Nat :=
  digitsValue 16 (text.drop 2)

namespace Token

/-! ### Literals -/

/-- A hexadecimal literal at the start of a text, and the text behind it. -/
def hexLiteral? : List Char → Option (Literal × List Char)
  | '0' :: mark :: rest =>
    if (mark = 'x' ∨ mark = 'X') ∧ rest.takeWhile isHexDigit ≠ [] then
      some (.hexadecimal ('0' :: mark :: rest.takeWhile isHexDigit), rest.dropWhile isHexDigit)
    else none
  | _ => none

/-- The digits behind a point at the start of a text, if it starts with one, and the text behind
them. A point counts only if there are digits before it (`afterDigits`) or behind it. -/
def fraction (afterDigits : Bool) : List Char → List Char × List Char
  | '.' :: rest =>
    if afterDigits || rest.takeWhile Char.isDigit ≠ [] then
      (rest.takeWhile Char.isDigit, rest.dropWhile Char.isDigit)
    else ([], '.' :: rest)
  | text => ([], text)

/-- The sign of an exponent, if there is one, and the text behind it. -/
def exponentSign : List Char → Bool × List Char
  | '-' :: rest => (true, rest)
  | '+' :: rest => (false, rest)
  | rest => (false, rest)

/-- The exponent at the start of a text, zero if there is none, and the text behind it. -/
def exponent : List Char → Int × List Char
  | [] => (0, [])
  | mark :: rest =>
    let (negative, digits) := exponentSign rest
    if (mark = 'e' ∨ mark = 'E') ∧ digits.takeWhile Char.isDigit ≠ [] then
      let magnitude : Int := digitsValue 10 (digits.takeWhile Char.isDigit)
      (if negative then -magnitude else magnitude, digits.dropWhile Char.isDigit)
    else (0, mark :: rest)

/-- A decimal literal at the start of a text, and the text behind it. -/
def decimalLiteral? (text : List Char) : Option (Literal × List Char) :=
  let whole := text.takeWhile Char.isDigit
  let (places, rest) := fraction (!whole.isEmpty) (text.dropWhile Char.isDigit)
  if whole.isEmpty && places.isEmpty then none
  else
    let (power, rest) := exponent rest
    some (.decimal ⟨digitsValue 10 (whole ++ places), power - places.length⟩, rest)

/-- **A literal at the start of a text**, and the text behind it. -/
def literal? (text : List Char) : Option (Literal × List Char) :=
  match hexLiteral? text with
  | some found => some found
  | none => decimalLiteral? text

/-! ### Texts -/

/-- The characters that may stand between tokens. -/
def isBlank (c : Char) : Bool :=
  c == ' ' || c == '\t' || c == '\r' || c == '\n'

/-- The token of a single character. -/
def ofChar? {α : Type} : Char → Option (Token α)
  | '+' => some plus
  | '-' => some minus
  | '*' => some times
  | '/' => some slash
  | '%' => some percent
  | '^' => some caret
  | '(' => some opening
  | ')' => some closing
  | _ => none

/-- The tokens of a text, given how to read a number from the start of one. At most `count`
characters and numbers are looked at. -/
def scanUpTo? {α : Type} (number? : List Char → Option (α × List Char)) :
    (count : Nat) → List Char → Option (List (Token α))
  | _, [] => some []
  | 0, _ :: _ => none
  | count + 1, c :: rest =>
    if isBlank c then scanUpTo? number? count rest
    else
      match ofChar? c with
      | some token => (scanUpTo? number? count rest).map (token :: ·)
      | none =>
        match number? (c :: rest) with
        | some (value, rest) => (scanUpTo? number? count rest).map (Token.literal value :: ·)
        | none => none

/-- The tokens of a text, if it has nothing but tokens and blanks in it, given how to read a number
from the start of one. -/
def scanWith? {α : Type} (number? : List Char → Option (α × List Char)) (text : List Char) :
    Option (List (Token α)) :=
  scanUpTo? number? text.length text

/-- **The tokens of a text** whose numbers are literals. -/
def scan? (text : List Char) : Option (List (Token Literal)) :=
  scanWith? literal? text

end Token

end WireCodec
