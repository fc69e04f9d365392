import WireCodec.Length.Sum

/-!
# The encoded length of a structure

Going through the fields of a structure in order, three sums are kept: its **least** length, its
**greatest** length, and its length when every field with a default value is left out. A field
adds its own length, and a group of fields adds the three sums of its own structure, multiplied by
the count of the array it stands in.
-/

namespace WireCodec

/-- **How a field takes part in the length of its structure.** -/
structure LengthFlags where
  /-- A string that ends at a zero byte, so that it may be as short as that byte. -/
  string : Bool := false
  /-- An array of variable length, which may be empty. -/
  variableLength : Bool := false
  /-- A field that is there only if another one says so. -/
  dependent : Bool := false
  /-- A field that is left out when it has its default value. -/
  hasDefault : Bool := false
deriving DecidableEq, Repr

/-- **The three sums of a structure.** -/
structure StructureLength (α : Type) where
  /-- The least length. -/
  least : LengthSum α := {}
  /-- The greatest length. -/
  greatest : LengthSum α := {}
  /-- The length without the fields that have a default value. -/
  nonDefault : LengthSum α := {}
deriving DecidableEq, Repr

namespace StructureLength

variable {α : Type} [Number α]

/-- What a field adds to the sums other than the greatest length: one byte if it is a string, and
its length otherwise. -/
def addShortest (s : LengthSum α) (length : List Char) (flags : LengthFlags) : LengthSum α :=
  if flags.string then s.addConstant 1 else s.add length

/-- **Add a field** of the given length. A blank length adds nothing. -/
def addField (l : StructureLength α) (length : List Char) (flags : LengthFlags) :
    StructureLength α :=
  if (Text.trim length).isEmpty then l
  else
    { least :=
        if flags.variableLength || flags.dependent then l.least
        else addShortest l.least length flags
      greatest := l.greatest.add length
      nonDefault :=
        if flags.hasDefault then l.nonDefault else addShortest l.nonDefault length flags }

/-- The count of a two-dimensional array. Counts with a value are multiplied out; a blank count
leaves the other one. -/
def arrayCount (α : Type) [Number α] (array array2d : List Char) : List Char :=
  let a := Text.trim array
  let b := Text.trim array2d
  if a.isEmpty then b
  else if b.isEmpty then a
  else
    match (evaluate? a : Option α), (evaluate? b : Option α) with
    | some x, some y => Number.text (x * y)
    | _, _ => a ++ '*' :: b

/-- **Add a group** of fields, repeated by the count of an array of one or two dimensions. -/
def addGroup (l group : StructureLength α) (array array2d : List Char)
    (variableLength dependent : Bool) : StructureLength α :=
  let count := arrayCount α array array2d
  { least :=
      if variableLength || dependent then l.least
      else l.least.addSum (group.least.times count)
    greatest := l.greatest.addSum (group.greatest.times count)
    nonDefault := l.nonDefault.addSum (group.nonDefault.times count) }

/-- The text of the least length. -/
def leastText (l : StructureLength α) : List Char :=
  l.least.foldedText true

/-- The text of the greatest length. -/
def greatestText (l : StructureLength α) : List Char :=
  l.greatest.foldedText true

/-- The text of the length without default fields. -/
def nonDefaultText (l : StructureLength α) : List Char :=
  l.nonDefault.foldedText true

/-- The structure never occupies a byte. -/
def isZeroLength (l : StructureLength α) : Bool :=
  l.greatest.value? == some 0

/-- The least and the greatest length are not written the same. -/
def isVariable (l : StructureLength α) : Bool :=
  l.leastText != l.greatestText

end StructureLength

end WireCodec
