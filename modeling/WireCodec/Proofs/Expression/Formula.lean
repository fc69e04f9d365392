import WireCodec.Proofs.Expression.Literal

/-!
# Formulas: expressions with names in them

Texts of lengths are expressions in which names stand for numbers that are known later only: `N`, or
`size()` where a generated program asks for the number. So a **formula** has two kinds of operands,
literals and symbols (`WireCodec.Operand`). The literals are integers, written in decimal or
hexadecimal digits.

Nothing is said about formulas by a reader of their own. `WireCodec.Operand.IsSpelled` says how
operands are written, and `WireCodec.IsFormula` is the grammar of expressions with these operands.
The scanner of numeric expressions agrees with it, as far as it knows the operands
(`WireCodec.Operand.agrees_literal?`). A reader for all of them is needed only to see that a text is
at most one formula (`WireCodec.IsFormula.unique`).
-/

namespace WireCodec

open Token

/-- **A name for a number.** -/
inductive Symbol
  /-- A name by itself. -/
  | name (text : List Char)
  /-- A call without arguments. -/
  | call (text : List Char)
deriving DecidableEq, Repr

/-- **An operand of a formula.** -/
inductive Operand
  /-- A literal. -/
  | literal (l : Literal)
  /-- A symbol. -/
  | symbol (s : Symbol)
deriving DecidableEq, Repr

/-- The characters that a name may start with. -/
def isNameStart (c : Char) : Bool :=
  c.isAlpha || c == '_'

/-- The characters that may be in a name. -/
def isNameChar (c : Char) : Bool :=
  c.isAlphanum || c == '_'

/-- **The text is a name**: a letter or an underscore, and then letters, digits and underscores. -/
def IsName (text : List Char) : Prop :=
  ∃ c tail, text = c :: tail ∧ isNameStart c = true ∧ ∀ d ∈ tail, isNameChar d = true

namespace Operand

/-- The literal that an operand is. -/
def literal? : Operand → Option Literal
  | literal l => some l
  | symbol _ => none

/-- **How operands are written.** -/
inductive IsSpelled : Operand → List Char → Prop
  /-- Decimal digits are a number. -/
  | decimal {digits : List Char} (hne : digits ≠ []) (h : ∀ d ∈ digits, d.isDigit = true) :
      IsSpelled (.literal (.decimal ⟨digitsValue 10 digits, 0⟩)) digits
  /-- Hexadecimal digits behind `0x` or `0X` are a number. -/
  | hexadecimal {mark : Char} {digits : List Char} (hmark : mark = 'x' ∨ mark = 'X')
      (hne : digits ≠ []) (h : ∀ d ∈ digits, isHexDigit d = true) :
      IsSpelled (.literal (.hexadecimal ('0' :: mark :: digits))) ('0' :: mark :: digits)
  /-- A name is a symbol. -/
  | name {text : List Char} (h : IsName text) : IsSpelled (.symbol (.name text)) text
  /-- A name with empty parentheses behind it is a symbol. -/
  | call {name before inside : List Char} (h : IsName name)
      (hbefore : ∀ c ∈ before, isBlank c = true) (hinside : ∀ c ∈ inside, isBlank c = true) :
      IsSpelled (.symbol (.call name)) (name ++ (before ++ '(' :: (inside ++ [')'])))

end Operand

/-- **The text is a formula**, namely this one. -/
def IsFormula (text : List Char) (e : Expression Operand) : Prop :=
  Expression.Derives (IsWritten Operand.IsSpelled) .sum text e

/-! ### Names -/

namespace Operand

variable {text rest : List Char} {a : Operand}

/-- The name at the start of a text, and the text behind it. -/
def name? : List Char → Option (List Char × List Char)
  | [] => none
  | c :: text =>
    if isNameStart c then some (c :: text.takeWhile isNameChar, text.dropWhile isNameChar)
    else none

/-- The text behind empty parentheses, if the text starts with them. -/
def behindCall? (text : List Char) : Option (List Char) :=
  match text.dropWhile isBlank with
  | '(' :: rest =>
    match rest.dropWhile isBlank with
    | ')' :: rest => some rest
    | _ => none
  | _ => none

/-- **An operand at the start of a text**, and the text behind it. -/
def read? (text : List Char) : Option (Operand × List Char) :=
  match name? text with
  | some (name, rest) =>
    match behindCall? rest with
    | some rest => some (.symbol (.call name), rest)
    | none => some (.symbol (.name name), rest)
  | none => (Token.literal? text).map fun found => (.literal found.1, found.2)

theorem shortens_read? : Shortens read? := by
  intro text a rest h
  unfold read? at h
  split at h
  · rename_i name behind hname
    have hlt : behind.length < text.length := by
      unfold name? at hname
      split at hname
      · exact absurd hname (by simp)
      · split at hname
        · obtain ⟨-, rfl⟩ := by simpa using hname
          exact Nat.lt_succ_of_le (length_dropWhile_le _ _)
        · exact absurd hname (by simp)
    split at h
    · rename_i hcall
      obtain ⟨-, rfl⟩ := by simpa using h
      unfold behindCall? at hcall
      have hfirst := length_dropWhile_le isBlank behind
      split at hcall
      · rename_i inside hinside
        have hsecond := length_dropWhile_le isBlank inside
        rw [hinside, List.length_cons] at hfirst
        split at hcall
        · rename_i hrest
          obtain rfl := Option.some.inj hcall
          rw [hrest, List.length_cons] at hsecond
          omega
        · exact absurd hcall (by simp)
      · exact absurd hcall (by simp)
    · obtain ⟨-, rfl⟩ := by simpa using h
      exact hlt
  · obtain ⟨⟨l, behind⟩, hliteral, heq⟩ := Option.map_eq_some_iff.mp h
    obtain ⟨-, rfl⟩ := by simpa using heq
    exact shortens_literal? _ _ _ hliteral

/-- A name is read to its end. -/
theorem name?_append {name : List Char} (h : IsName name)
    (hrest : ∀ c ∈ rest.head?, isNameChar c = false) :
    name? (name ++ rest) = some (name, rest) := by
  obtain ⟨c, tail, rfl, hc, htail⟩ := h
  rw [List.cons_append, name?, if_pos hc, List.takeWhile_append_of_pos htail,
    List.dropWhile_append_of_pos htail]
  cases rest with
  | nil => simp
  | cons d rest => simp [hrest d rfl]

theorem name?_eq_none {c : Char} (h : isNameStart c = false) : name? (c :: rest) = none := by
  rw [name?, h, if_neg Bool.false_ne_true]

theorem behindCall?_eq_none (h : IsClosed rest) : behindCall? rest = none := by
  unfold behindCall?
  split
  · rename_i behind hbehind
    obtain ⟨t, ht, hne⟩ := h '(' (by rw [hbehind]; rfl)
    exact absurd (Option.some.inj ht).symm hne
  · rfl

theorem behindCall?_append {before inside : List Char} (hbefore : ∀ c ∈ before, isBlank c = true)
    (hinside : ∀ c ∈ inside, isBlank c = true) :
    behindCall? (before ++ '(' :: (inside ++ ')' :: rest)) = some rest := by
  have hopening : ('(' :: (inside ++ ')' :: rest)).dropWhile isBlank =
      '(' :: (inside ++ ')' :: rest) := by simp [isBlank]
  have hclosing : (')' :: rest).dropWhile isBlank = ')' :: rest := by simp [isBlank]
  simp only [behindCall?, List.dropWhile_append_of_pos hbefore, hopening,
    List.dropWhile_append_of_pos hinside, hclosing]

/-! ### The readers agree with the spelling -/

theorem isAlpha_iff_toNat {c : Char} : c.isAlpha = true ↔
    'A'.toNat ≤ c.toNat ∧ c.toNat ≤ 'Z'.toNat ∨ 'a'.toNat ≤ c.toNat ∧ c.toNat ≤ 'z'.toNat := by
  change (decide ('A'.val ≤ c.val ∧ c.val ≤ 'Z'.val) ||
    (decide ('a'.val ≤ c.val) && decide (c.val ≤ 'z'.val))) = true ↔ _
  simp only [Bool.or_eq_true, Bool.and_eq_true, decide_eq_true_eq, UInt32.le_iff_toNat_le]
  rfl

theorem not_isNameStart_of_isDigit {c : Char} (h : c.isDigit = true) : isNameStart c = false := by
  have hne : c ≠ '_' := by
    rintro rfl
    exact absurd h (by decide)
  rw [Char.isDigit_iff_toNat] at h
  rw [isNameStart, beq_false_of_ne hne, Bool.or_false, ← Bool.not_eq_true, isAlpha_iff_toNat]
  simp only [Char.reduceToNat] at h ⊢
  omega

theorem isNameChar_of_isNameStart {c : Char} (h : isNameStart c = true) : isNameChar c = true := by
  rw [isNameStart, Bool.or_eq_true] at h
  rw [isNameChar, Char.isAlphanum, Bool.or_assoc, Bool.or_comm c.isDigit, ← Bool.or_assoc,
    Bool.or_eq_true, Bool.or_eq_true]
  exact .inl h

theorem isNameChar_of_isDigit {c : Char} (h : c.isDigit = true) : isNameChar c = true := by
  rw [isNameChar, Char.isAlphanum, h, Bool.or_true, Bool.true_or]

theorem isBlank_of_isNameChar {c : Char} (h : isNameChar c = true) : isBlank c = false := by
  cases hblank : isBlank c with
  | false => rfl
  | true =>
    have hnone : closers.any isNameChar = false := by decide
    exact absurd h (List.any_eq_false.mp hnone c (mem_closers_of_isBlank hblank))

theorem ofChar?_of_isNameChar {α : Type} {c : Char} (h : isNameChar c = true) :
    (ofChar? c : Option (Token α)) = none := by
  cases hc : (ofChar? c : Option (Token α)) with
  | none => rfl
  | some t =>
    rw [ofChar?_eq_some_iff] at hc
    cases t <;> cases hc <;> exact absurd h (by decide)

/-- An operand starts with a character of a name. -/
theorem IsSpelled.exists_cons {w : List Char} (h : IsSpelled a w) :
    ∃ c tail, w = c :: tail ∧ isNameChar c = true := by
  cases h with
  | decimal hne h =>
    obtain ⟨d, digits, rfl⟩ := List.exists_cons_of_ne_nil hne
    exact ⟨d, digits, rfl, isNameChar_of_isDigit (h d List.mem_cons_self)⟩
  | hexadecimal => exact ⟨_, _, rfl, by decide⟩
  | name h =>
    obtain ⟨c, tail, rfl, hc, -⟩ := h
    exact ⟨c, tail, rfl, isNameChar_of_isNameStart hc⟩
  | call h =>
    obtain ⟨c, tail, rfl, hc, -⟩ := h
    exact ⟨c, _, rfl, isNameChar_of_isNameStart hc⟩

theorem IsSpelled.starts {α : Type} {w : List Char} (h : IsSpelled a w) :
    ∃ c tail, w = c :: tail ∧ isBlank c = false ∧ (ofChar? c : Option (Token α)) = none := by
  obtain ⟨c, tail, rfl, hc⟩ := h.exists_cons
  exact ⟨c, tail, rfl, isBlank_of_isNameChar hc, ofChar?_of_isNameChar hc⟩

/-- A name does not start with a literal. -/
theorem literal?_name_append {name : List Char} (h : IsName name) :
    Token.literal? (name ++ rest) = none := by
  obtain ⟨c, tail, rfl, hc, -⟩ := h
  refine literal?_eq_none ?_ ?_
  · cases hdigit : c.isDigit with
    | false => rfl
    | true => exact absurd hc (by rw [not_isNameStart_of_isDigit hdigit]; decide)
  · rintro rfl
    exact absurd hc (by decide)

/-- **The scanner of numeric expressions** reads an operand if it is a literal. -/
theorem agrees_literal? : Agrees Token.literal? literal? IsSpelled := by
  refine ⟨shortens_literal?, fun a w h => h.starts, ?_⟩
  intro a w rest h hrest
  cases h with
  | decimal hne h =>
    rw [Token.literal?, hexLiteral?_digits h hrest, decimalLiteral?_append_closed hne h hrest]
    rfl
  | hexadecimal hmark hne h =>
    rw [List.cons_append, List.cons_append, Token.literal?,
      hexLiteral?_append_closed hmark hne h hrest]
    rfl
  | name h => exact literal?_name_append h
  | call h =>
    rw [List.append_assoc]
    exact literal?_name_append h

theorem agrees_read? : Agrees read? some IsSpelled := by
  refine ⟨shortens_read?, fun a w h => h.starts, ?_⟩
  intro a w rest h hrest
  have hliteral := agrees_literal?.reads a w rest h hrest
  have hclosed : ∀ c ∈ rest.head?, isNameChar c = false := fun c hc => by
    have hnone : closers.any isNameChar = false := by decide
    simpa using List.any_eq_false.mp hnone c (hrest.mem_closers c hc)
  cases h with
  | decimal hne h =>
    obtain ⟨d, digits, rfl⟩ := List.exists_cons_of_ne_nil hne
    have hnone := not_isNameStart_of_isDigit (h d List.mem_cons_self)
    rw [read?, List.cons_append, name?_eq_none hnone, ← List.cons_append, hliteral]
    rfl
  | hexadecimal hmark hne h =>
    rw [read?, List.cons_append, name?_eq_none (by decide), ← List.cons_append, hliteral]
    rfl
  | name h =>
    rw [read?, name?_append h hclosed]
    simp only [behindCall?_eq_none hrest]
    rfl
  | @call name before inside h hbefore hinside =>
    -- The name ends before the blanks, or before the parenthesis if there are none.
    have hbehind : ∀ c ∈ (before ++ '(' :: (inside ++ [')']) ++ rest).head?,
        isNameChar c = false := by
      intro c hc
      cases before with
      | nil =>
        obtain rfl : '(' = c := by simpa using hc
        decide
      | cons b before =>
        obtain rfl : b = c := by simpa using hc
        cases hnone : isNameChar b with
        | false => rfl
        | true =>
          have := hbefore b List.mem_cons_self
          exact absurd this (by rw [isBlank_of_isNameChar hnone]; decide)
    rw [read?, List.append_assoc, name?_append h hbehind]
    simp only [List.append_assoc, List.cons_append, List.nil_append,
      behindCall?_append hbefore hinside]
    rfl

end Operand

/-! ### Formulas -/

/-- **A text is at most one formula.** -/
theorem IsFormula.unique {text : List Char} {e e' : Expression Operand} (h : IsFormula text e)
    (h' : IsFormula text e') : e = e' :=
  Expression.Derives.unique Operand.agrees_read? h h'

/-- A formula that is a numeric expression has literals only, and is that expression. -/
theorem IsFormula.map?_of_parse? {text : List Char} {e : Expression Operand}
    {e' : Expression Literal} (h : IsFormula text e) (he' : Expression.parse? text = some e') :
    e.map? Operand.literal? = some e' :=
  Expression.Derives.map?_of_scan Operand.agrees_literal? h he'

end WireCodec
