import WireCodec.Text.Printable

/-!
# Quoted texts

A text in quotation marks, as messages show it. Quotation marks and backslashes in it get a
backslash, some controls are written as a backslash with a letter, and any other character that
cannot be shown as it is, by its code point.
-/

namespace WireCodec.Text

/-- How a character is written in a quoted text. -/
def quoteChar (c : Char) : List Char :=
  if c = '"' ∨ c = '\\' then ['\\', c]
  else if c = '\t' then ['\\', 't']
  else if c = '\r' then ['\\', 'r']
  else if c = '\n' then ['\\', 'n']
  else if c = '\x00' then ['\\', '0']
  else if isPrintable c then [c]
  else ['\\', 'u', '\x7b'] ++ Nat.toDigits 16 c.toNat ++ ['\x7d']

/-- **The quoted text.** -/
def quote (text : String) : String :=
  String.ofList ('"' :: text.toList.flatMap quoteChar ++ ['"'])

end WireCodec.Text
