import WireCodec.BitField

/-!
# Bit fields in C

The C statements that write or read one bit field of an array of bytes, when the place of the
field is known beforehand: one statement for each fragment of the field, doing what
`WireCodec.BitField.write?` and `WireCodec.BitField.read?` do to that fragment's byte.

The statements are trees (`WireCodec.CExpression`, `WireCodec.CStatement`) with one function each
for their text. Parentheses are part of the tree.
-/

namespace WireCodec

/-! ### C text -/

/-- **A C expression**, as far as bit fields need them. -/
inductive CExpression
  /-- A variable. -/
  | name (text : String)
  /-- An element of an array, `array[index]`. -/
  | element (array : String) (index : Nat)
  /-- An expression in parentheses. -/
  | group (operand : CExpression)
  /-- A shift to the left by a constant. -/
  | shiftLeft (operand : CExpression) (amount : Nat)
  /-- A shift to the right by a constant. -/
  | shiftRight (operand : CExpression) (amount : Nat)
  /-- A bitwise and with a constant. -/
  | bitAnd (operand : CExpression) (mask : Nat)
  /-- A bitwise or. -/
  | bitOr (left right : CExpression)
  /-- An expression in parentheses that is converted to a byte. -/
  | toByte (operand : CExpression)
deriving DecidableEq, Repr

/-- **A C statement** that assigns to a variable or an array element, with `=` or with `|=`. -/
structure CStatement where
  /-- What is assigned to. -/
  target : CExpression
  /-- The old value is kept and merged with the new one by a bitwise or. -/
  merges : Bool
  /-- The new value. -/
  value : CExpression
deriving DecidableEq, Repr

/-- A natural number in C's hexadecimal form, with capital digits. -/
def cHexText (n : Nat) : String :=
  "0x" ++ String.ofList ((Nat.toDigits 16 n).map Char.toUpper)

/-- The text of an expression. -/
def CExpression.render : CExpression → String
  | name text => text
  | element array index => array ++ "[" ++ toString index ++ "]"
  | group e => "(" ++ e.render ++ ")"
  | shiftLeft e amount => e.render ++ " << " ++ toString amount
  | shiftRight e amount => e.render ++ " >> " ++ toString amount
  | bitAnd e mask => e.render ++ " & " ++ cHexText mask
  | bitOr left right => left.render ++ " | " ++ right.render
  | toByte e => "(uint8_t)(" ++ e.render ++ ")"

/-- The text of a statement. -/
def CStatement.render (s : CStatement) : String :=
  s.target.render ++ (if s.merges then " |= " else " = ") ++ s.value.render ++ ";"

/-- The text of a list of statements, one in a line. -/
def CStatement.renderAll (statements : List CStatement) : String :=
  "\n".intercalate (statements.map CStatement.render)

/-! ### Statements for a field -/

/-- An expression shifted to the left. A shift by zero is left out. -/
def CExpression.shiftedLeft (e : CExpression) (amount : Nat) : CExpression :=
  if amount = 0 then e else e.shiftLeft amount

/-- An expression shifted to the right. A shift by zero is left out. -/
def CExpression.shiftedRight (e : CExpression) (amount : Nat) : CExpression :=
  if amount = 0 then e else e.shiftRight amount

namespace BitField

/-- **The statements that write the variable `argument` into a field** of an array. -/
def cWrite (f : BitField) (array argument : String) : List CStatement :=
  f.fragments.map fun g =>
    { target := .element array g.index
      merges := !f.assigns g
      value := .toByte (((CExpression.name argument).shiftedRight g.rest).shiftedLeft g.shift) }

/-- What the first statement that reads a field assigns: the bits of its fragment, without those
that stand before them in the byte. -/
def cReadFirst (array : String) (g : Fragment) : CExpression :=
  let bits := (CExpression.element array g.index).shiftedRight g.shift
  if g.lead = 0 then bits
  else .bitAnd (if g.rest = 0 then .group bits else bits) (2 ^ g.width - 1)

/-- What a later statement that reads a field assigns: the bits read before, followed by those of
its fragment. -/
def cReadNext (array target : String) (g : Fragment) : CExpression :=
  let byte := CExpression.element array g.index
  .bitOr (.group (.shiftLeft (.name target) g.width))
    (if g.shift = 0 then byte else .group (.shiftRight byte g.shift))

/-- **The statements that read a field** of an array into the variable `target`. -/
def cRead (f : BitField) (array target : String) : List CStatement :=
  match f.fragments with
  | [] => []
  | g :: rest =>
    ⟨.name target, false, cReadFirst array g⟩ ::
      rest.map fun g => ⟨.name target, false, cReadNext array target g⟩

@[simp] theorem cWrite_width_zero (offset : Nat) (array argument : String) :
    (⟨offset, 0⟩ : BitField).cWrite array argument = [] := by
  simp [cWrite, fragments]

@[simp] theorem cRead_width_zero (offset : Nat) (array target : String) :
    (⟨offset, 0⟩ : BitField).cRead array target = [] := by
  simp [cRead, fragments]

end BitField

end WireCodec
