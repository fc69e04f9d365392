/-!
# Blank characters

The blank characters are those with the Unicode property `White_Space`: the ASCII space and the
controls from tab to carriage return, and some more spaces and separators. Trimming a text takes
them away at both ends.
-/

namespace WireCodec.Text

/-- **A blank character**, by the Unicode property `White_Space`. -/
def isBlank (c : Char) : Bool :=
  ('\t' ≤ c && c ≤ '\r') || c == ' ' || c == '\u0085' || c == '\u00a0' || c == '\u1680' ||
    ('\u2000' ≤ c && c ≤ '\u200a') || c == '\u2028' || c == '\u2029' || c == '\u202f' ||
    c == '\u205f' || c == '\u3000'

/-- A text without the blanks at its start. -/
def trimStart (text : List Char) : List Char :=
  text.dropWhile isBlank

/-- **A text without the blanks at its ends.** -/
def trim (text : List Char) : List Char :=
  (trimStart (trimStart text).reverse).reverse

@[simp] theorem trimStart_nil : trimStart [] = [] := rfl

@[simp] theorem trim_nil : trim [] = [] := rfl

end WireCodec.Text
