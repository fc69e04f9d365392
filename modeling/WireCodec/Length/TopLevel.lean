/-!
# The top level of a text

A character of a text is at the **top level** if as many parentheses have been closed as opened
before it. Texts are lists of characters, so a place in one never falls inside a character.

Parentheses need not be balanced. One that is closed too early puts what follows below the top
level, until one is opened again.
-/

namespace WireCodec

/-- The depth behind a character, from the depth before it. -/
def depthAfter (depth : Int) : Char → Int
  | '(' => depth + 1
  | ')' => depth - 1
  | _ => depth

/-- The parts of a text between the separators that are at the top level, from depth `depth`
on. -/
def splitFrom (separator : Char) (depth : Int) : List Char → List (List Char)
  | [] => [[]]
  | c :: text =>
    if c = separator ∧ depth = 0 then [] :: splitFrom separator 0 text
    else (splitFrom separator (depthAfter depth c) text).modifyHead (c :: ·)

/-- **The parts of a text between the separators that are at its top level.** -/
def splitTopLevel (separator : Char) (text : List Char) : List (List Char) :=
  splitFrom separator 0 text

/-- The place of the first separator at the top level, from depth `depth` on. -/
def findFrom? (separator : Char) (depth : Int) : List Char → Option Nat
  | [] => none
  | c :: text =>
    if c = separator ∧ depth = 0 then some 0
    else (findFrom? separator (depthAfter depth c) text).map (· + 1)

/-- **The place of the first separator at the top level of a text.** -/
def findTopLevel? (separator : Char) (text : List Char) : Option Nat :=
  findFrom? separator 0 text

/-- One of `+`, `-`, `/` and `%` is at the top level, from depth `depth` on. -/
def hasOperatorFrom (depth : Int) : List Char → Bool
  | [] => false
  | c :: text =>
    (depth == 0 && (c == '+' || c == '-' || c == '/' || c == '%')) ||
      hasOperatorFrom (depthAfter depth c) text

/-- **One of `+`, `-`, `/` and `%` is at the top level of the text**, a leading sign included. -/
def hasTopLevelOperator (text : List Char) : Bool :=
  hasOperatorFrom 0 text

/-- **The text is a plain product**: none of `+`, `-`, `/` and `%` is at its top level, a leading
sign apart. -/
def isProduct : List Char → Bool
  | '+' :: text => !hasTopLevelOperator text
  | '-' :: text => !hasTopLevelOperator text
  | text => !hasTopLevelOperator text

@[simp] theorem splitFrom_nil (separator : Char) (depth : Int) :
    splitFrom separator depth [] = [[]] := rfl

theorem splitFrom_ne_nil (separator : Char) (depth : Int) (text : List Char) :
    splitFrom separator depth text ≠ [] := by
  induction text generalizing depth with
  | nil => simp
  | cons c text ih =>
    rw [splitFrom]
    split
    · simp
    · have := ih (depthAfter depth c)
      cases h : splitFrom separator (depthAfter depth c) text with
      | nil => contradiction
      | cons part parts => simp

end WireCodec
