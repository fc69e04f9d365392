import WireCodec.Proofs.Length.Exponents
import WireCodec.Proofs.Length.Rendering

/-!
# Constants in a length

A numeric expression in front of a name is cut at the `+` signs of its top level like any other
length. If these are operators only, its parts have values that add up to its own, as far as sums
are exact (`WireCodec.isSumOfParts_of_evaluate?`): a product behind a `+` is one more part, and one
behind a `-` is taken away from the last part instead of the whole. The parts need not be integers
for that.

So the expression is folded to its value, and the name is kept
(`WireCodec.LengthSum.isWorth_foldedText_append_name`), unless the expression is cut within a
literal: then a piece of the literal has no value and is taken for a symbol.
-/

namespace WireCodec

open Token Expression

variable {α : Type} {text w : List Char} {level : Level}

/-! ### The value of a numeric expression -/

section Values

variable [Number α] {a b : α}

/-- **The text is a numeric expression of a level, with this value.** -/
def HasValue (level : Level) (text : List Char) (a : α) : Prop :=
  ∃ e, Derives (IsWritten Literal.IsSpelled) level text e ∧ e.value = .ok a

/-- **A text is evaluated to its value**, if that is finite. -/
theorem evaluate?_eq_some_iff :
    evaluate? text = some a ↔ HasValue .sum text a ∧ Number.isFinite a = true := by
  constructor
  · intro h
    rw [evaluate?, evaluate] at h
    cases hparse : parse? text with
    | none => simp [hparse, Except.toOption] at h
    | some e =>
      rw [hparse] at h
      cases hvalue : (e.value : Except EvaluationError α) with
      | error error => simp [hvalue, Except.toOption] at h
      | ok b =>
        simp only [hvalue] at h
        split at h
        · rename_i hfinite
          obtain rfl := Option.some.inj h
          exact ⟨⟨e, parse?_eq_some_iff.mp hparse, hvalue⟩, hfinite⟩
        · exact absurd h (by simp [Except.toOption])
  · rintro ⟨⟨e, he, hvalue⟩, hfinite⟩
    rw [evaluate?, evaluate, parse?_eq_some_iff.mpr he]
    simp only [hvalue, if_pos hfinite]
    rfl

/-- The value of an operator is that of its operands. -/
theorem value_binary_eq_ok {op : BinaryOperator} {left right : Expression Literal} :
    (Expression.binary op left right).value = .ok a ↔
      ∃ b c : α, left.value = .ok b ∧ right.value = .ok c ∧ op.apply b c = a := by
  rw [Expression.value]
  cases (left.value : Except EvaluationError α) <;>
    cases (right.value : Except EvaluationError α) <;> simp [bind, Except.bind, pure, Except.pure]

namespace HasValue

theorem trim (h : HasValue level text a) : HasValue level (Text.trim text) a := by
  obtain ⟨e, he, hvalue⟩ := h
  exact ⟨e, he.trim Literal.isSolid, hvalue⟩

theorem ne_nil (h : HasValue level text a) : text ≠ [] := by
  obtain ⟨e, he, -⟩ := h
  exact he.ne_nil Literal.isSolid

theorem toSum (h : HasValue .product text a) : HasValue .sum text a := by
  obtain ⟨e, he, hvalue⟩ := h
  exact ⟨e, .ofProduct he, hvalue⟩

theorem blanks_append (h : HasValue level text a) {blanks : List Char}
    (hblanks : ∀ c ∈ blanks, isBlank c = true) : HasValue level (blanks ++ text) a := by
  obtain ⟨e, he, hvalue⟩ := h
  exact ⟨e, he.blanks_append Literal.isSolid hblanks, hvalue⟩

theorem append_blanks (h : HasValue level text a) {blanks : List Char}
    (hblanks : ∀ c ∈ blanks, isBlank c = true) : HasValue level (text ++ blanks) a := by
  obtain ⟨e, he, hvalue⟩ := h
  exact ⟨e, he.append_blanks Literal.isSolid hblanks, hvalue⟩

end HasValue

/-- **A text with a value is a constant.** -/
theorem LengthTerm.parse?_of_evaluate? (h : evaluate? text = some a) :
    LengthTerm.parse? text = some (.constant a) := by
  obtain ⟨hvalue, hfinite⟩ := evaluate?_eq_some_iff.mp h
  have hne : (Text.trim text).isEmpty = false := by simpa using hvalue.trim.ne_nil
  have htrim := evaluate?_eq_some_iff.mpr ⟨hvalue.trim, hfinite⟩
  simp only [LengthTerm.parse?, hne, Bool.false_eq_true, if_false, htrim]

/-! ### Cutting a numeric expression -/

/-- **The parts of the text between the `+` signs at its top level have values**, which add up to
this one. -/
def IsSumOfParts (text : List Char) (a : α) : Prop :=
  ∃ (parts : List (List Char)) (last : List Char) (values : List α) (value : α),
    splitTopLevel '+' text = parts ++ [last] ∧ parts.map evaluate? = values.map some ∧
      evaluate? last = some value ∧ values.foldl (· + ·) (Number.ofInt 0) + value = a

variable {left right : List Char} {t : Token Literal}

/-- A product behind a `+` is one more part. -/
theorem IsSumOfParts.add (hl : IsSumOfParts left a) (hnested : IsNested left)
    (hw : IsWritten Literal.IsSpelled t w) (ht : signOf? t = some '+')
    (hr : HasValue .product right b) (hfinite : Number.isFinite b = true)
    (hplus : '+' ∉ topLevel 0 right) : IsSumOfParts (left ++ (w ++ right)) (a + b) := by
  obtain ⟨parts, last, values, value, hsplit, hvalues, hlast, rfl⟩ := hl
  obtain ⟨before, after, hbefore, hafter, heq⟩ :=
    splitTopLevel_append_plus hnested hsplit hw ht hplus
  obtain ⟨hvalue, hfinite'⟩ := evaluate?_eq_some_iff.mp hlast
  have hpart := evaluate?_eq_some_iff.mpr ⟨hvalue.append_blanks hbefore, hfinite'⟩
  have hright := evaluate?_eq_some_iff.mpr ⟨(hr.blanks_append hafter).toSum, hfinite⟩
  refine ⟨parts ++ [last ++ before], after ++ right, values ++ [value], b, heq, ?_, hright, ?_⟩
  · rw [List.map_append, List.map_append, hvalues, List.map_singleton, List.map_singleton, hpart]
  · rw [List.foldl_append, List.foldl_cons, List.foldl_nil]

variable [Number.IsExact α]

theorem isSumOfParts_of_not_mem (h : evaluate? text = some a) (hplus : '+' ∉ topLevel 0 text) :
    IsSumOfParts text a := by
  obtain ⟨-, hfinite⟩ := evaluate?_eq_some_iff.mp h
  exact ⟨[], text, [], a, splitFrom_eq_singleton hplus, rfl, h, Number.IsExact.zero_add hfinite⟩

/-- A product behind a `-` is taken away from the last part. -/
theorem IsSumOfParts.sub (hl : IsSumOfParts left a)
    (hnested : IsNested left) (hminus : sumOperator? t = some .subtract)
    (hw : IsWritten Literal.IsSpelled t w) (ht : signOf? t = some '-')
    (hr : HasValue .product right b) (hfinite : Number.isFinite (a - b) = true)
    (hplus : '+' ∉ topLevel 0 right) : IsSumOfParts (left ++ (w ++ right)) (a - b) := by
  obtain ⟨parts, last, values, value, hsplit, hvalues, hlast, rfl⟩ := hl
  obtain ⟨⟨e, he, hvalue⟩, -⟩ := evaluate?_eq_some_iff.mp hlast
  obtain ⟨e', he', hvalue'⟩ := hr
  have hassoc := Number.IsExact.add_sub hfinite
  rw [hassoc] at hfinite ⊢
  obtain ⟨-, hpart⟩ := Number.IsExact.isFinite_of_add hfinite
  exact ⟨parts, last ++ (w ++ right), values, value - b,
    splitTopLevel_append_minus hnested hsplit hw ht hplus, hvalues,
    evaluate?_eq_some_iff.mpr ⟨⟨_, .sum he hminus hw he',
      value_binary_eq_ok.mpr ⟨_, _, hvalue, hvalue', rfl⟩⟩, hpart⟩, rfl⟩

/-- **A numeric expression is the sum of its parts**, unless an exponent with a `+` is at its top
level. -/
theorem isSumOfParts_of_evaluate? (h : evaluate? text = some a) (hplus : ¬HasPlusExponent text) :
    IsSumOfParts text a := by
  have hkey : ∀ {level text e}, Derives (IsWritten Literal.IsSpelled) level text e →
      level = .sum → ∀ {a : α}, e.value = .ok a → Number.isFinite a = true →
      ¬HasPlusExponent text → IsSumOfParts text a := by
    intro level text e he hlevel
    induction he with
    | @sum left w right el er t op hl ht hw hr ihl _ =>
      intro a hvalue hfinite hplus
      obtain ⟨b, c, hb, hc, rfl⟩ := value_binary_eq_ok.mp hvalue
      obtain ⟨sign, hsign, hop⟩ := exists_of_sumOperator? ht
      have hparenthesis : sign ≠ '(' ∧ sign ≠ ')' := by
        rcases hop with ⟨rfl, -⟩ | ⟨rfl, -⟩ <;> decide
      have hnested := hl.hasNoPlus.1
      have hleft : ¬HasPlusExponent left := fun h => hplus (h.append _)
      have hright : '+' ∉ topLevel 0 right := (hr.hasNoPlus.2 (by simp)).not_mem
        fun h => hplus (h.append_sign hnested hw hsign hparenthesis)
      rcases hop with ⟨rfl, rfl⟩ | ⟨rfl, rfl⟩
      · obtain ⟨hbfinite, hcfinite⟩ := Number.IsExact.isFinite_of_add hfinite
        exact (ihl hlevel hb hbfinite hleft).add hnested hw hsign ⟨er, hr, hc⟩ hcfinite hright
      · obtain ⟨hbfinite, -⟩ := Number.IsExact.isFinite_of_sub hfinite
        exact (ihl hlevel hb hbfinite hleft).sub hnested ht hw hsign ⟨er, hr, hc⟩ hfinite hright
    | ofProduct h =>
      intro a hvalue hfinite hplus
      exact isSumOfParts_of_not_mem (evaluate?_eq_some_iff.mpr ⟨⟨_, .ofProduct h, hvalue⟩, hfinite⟩)
        ((h.hasNoPlus.2 (by simp)).not_mem hplus)
    | _ => exact absurd hlevel (by simp)
  obtain ⟨⟨e, he, hvalue⟩, hfinite⟩ := evaluate?_eq_some_iff.mp h
  exact hkey he rfl hvalue hfinite hplus

end Values

/-! ### A name behind a numeric expression -/

section Names

variable {name : List Char}

theorem Text.trim_eq_self (h : ∀ c ∈ text, isBlank c = false) : trim text = text := by
  have hstart : ∀ {text : List Char}, (∀ c ∈ text, isBlank c = false) → trimStart text = text := by
    intro text h
    cases text with
    | nil => rfl
    | cons c text =>
      rw [trimStart, List.dropWhile_cons_of_neg (by simp [h c List.mem_cons_self])]
  rw [trim, hstart h, hstart fun c hc => h c (List.mem_reverse.mp hc), List.reverse_reverse]

/-- A name has no tokens of numeric expressions. -/
theorem IsName.scan?_eq_none (h : IsName name) : scan? name = none := by
  have hliteral : literal? (name ++ []) = none := Operand.literal?_name_append h
  have hname := h.forall_isNameChar
  obtain ⟨c, tail, rfl, -⟩ := h
  rw [List.append_nil] at hliteral
  have hc := hname c List.mem_cons_self
  rw [scan?, scanWith?_number shortens_literal? (Operand.isBlank_of_isNameChar hc)
    (Operand.ofChar?_of_isNameChar hc), hliteral, Option.bind_none]

theorem IsName.ne_nil (h : IsName name) : name ≠ [] := by
  obtain ⟨c, tail, rfl, -⟩ := h
  exact List.cons_ne_nil c tail

theorem IsName.scan?_append_eq_none (h : IsName name) {e : Expression Literal}
    (he : Derives (IsWritten Literal.IsSpelled) level text e) :
    scan? (text ++ '+' :: name) = none := by
  obtain ⟨ts, -, hscans⟩ := he.exists_tokens Literal.agrees_literal?
  have hsign : (ofChar? '+' : Option (Token Literal)) = some .plus := rfl
  have hclosed : IsClosed ('+' :: name) := isClosed_sign hsign nofun
  have hname : scanWith? literal? name = none := h.scan?_eq_none
  rw [scan?, hscans _ hclosed, scanWith?_sign hsign, hname]
  simp

variable [Number α]

theorem evaluate?_of_scan? (h : scan? text = none) : (evaluate? text : Option α) = none := by
  rw [evaluate?, evaluate, parse?, h]
  rfl

/-- **A name is a symbol** with the coefficient one. -/
theorem LengthTerm.parse?_name (h : IsName name) :
    (LengthTerm.parse? name : Option (LengthTerm α)) = some (.symbolic (Number.ofInt 1) name) := by
  have htrim : Text.trim name = name :=
    Text.trim_eq_self fun c hc => Text.isBlank_of_isNameChar (h.forall_isNameChar c hc)
  have hne : name.isEmpty = false := by simpa using h.ne_nil
  have hplace : findTopLevel? '*' name = none :=
    findFrom?_eq_none fun hmem => (hasShape_nameChars h.forall_isNameChar).2 _ hmem (by simp)
  have hproduct : (ofProduct? name : Option (LengthTerm α)) = none := by
    simp only [ofProduct?, hplace]
    exact ite_self none
  simp only [parse?, htrim, hne, Bool.false_eq_true, if_false, evaluate?_of_scan? h.scan?_eq_none,
    hproduct, Option.getD_none]

namespace LengthSum

theorem filterMap_parse? {parts : List (List Char)} {values : List α}
    (h : parts.map evaluate? = values.map some) :
    parts.filterMap LengthTerm.parse? = values.map LengthTerm.constant := by
  induction parts generalizing values with
  | nil =>
    obtain rfl := List.map_eq_nil_iff.mp h.symm
    rfl
  | cons part parts ih =>
    cases values with
    | nil => exact absurd h (by simp)
    | cons value values =>
      obtain ⟨hpart, hparts⟩ := List.cons.inj h
      rw [List.filterMap_cons_some (LengthTerm.parse?_of_evaluate? hpart), ih hparts,
        List.map_cons]

/-- The sum of constants and of a name. -/
def ofConstants (values : List α) (name : List Char) : LengthSum α :=
  ⟨values.map LengthTerm.constant ++ [.symbolic (Number.ofInt 1) name]⟩

/-- **A numeric expression with a name behind it** is read as constants that add up to its value,
and the name. -/
theorem exists_parse_eq_ofConstants [Number.IsExact α] {a : α} (h : evaluate? text = some a)
    (hplus : ¬HasPlusExponent text) (hname : IsName name) :
    ∃ values : List α, values.foldl (· + ·) (Number.ofInt 0) = a ∧
      parse (text ++ '+' :: name) = ofConstants values name := by
  obtain ⟨parts, last, values, value, hsplit, hvalues, hlast, hsum⟩ :=
    isSumOfParts_of_evaluate? h hplus
  obtain ⟨⟨e, he, -⟩, -⟩ := evaluate?_eq_some_iff.mp h
  have hwhole : (evaluate? (text ++ '+' :: name) : Option α) = none :=
    evaluate?_of_scan? (hname.scan?_append_eq_none he)
  have hfree : '+' ∉ topLevel 0 name := fun hmem =>
    (hasShape_nameChars hname.forall_isNameChar).2 _ hmem (by simp)
  have hparts : splitTopLevel '+' (text ++ '+' :: name) = parts ++ [last] ++ [name] := by
    rw [← hsplit, splitTopLevel, splitFrom_append_separator rfl (he.hasNoPlus.1.depthBehind 0),
      splitFrom_eq_singleton hfree]
    rfl
  have hall : (parts ++ [last]).map evaluate? = (values ++ [value]).map some := by
    rw [List.map_append, List.map_append, hvalues, List.map_singleton, hlast, List.map_singleton]
  refine ⟨values ++ [value], by rw [List.foldl_append]; exact hsum, ?_⟩
  simp only [parse, add, termsOf, hwhole, hparts]
  rw [List.filterMap_append, filterMap_parse? hall,
    List.filterMap_cons_some (LengthTerm.parse?_name hname), List.filterMap_nil, List.nil_append]
  rfl

/-! ### Folding constants and a name -/

theorem symbolTerms_ofConstants (values : List α) (name : List Char) :
    (ofConstants values name).symbolTerms = [.symbolic (Number.ofInt 1) name] := by
  have hconstants : (values.map LengthTerm.constant).foldl mergeTerm [] = [] := by
    induction values with
    | nil => rfl
    | cons value values ih => exact ih
  rw [symbolTerms, ofConstants, List.foldl_append, hconstants]
  rfl

theorem constantPart_ofConstants (values : List α) (name : List Char) :
    (ofConstants values name).constantPart =
      Number.round (values.foldl (· + ·) (Number.ofInt 0)) := by
  have hconstants : (ofConstants values name).terms.filter LengthTerm.isConstant =
      values.map LengthTerm.constant := by
    rw [ofConstants, List.filter_append,
      List.filter_eq_self.mpr (List.forall_mem_map.mpr fun _ _ => rfl)]
    exact List.append_nil _
  rw [constantPart, hconstants, total, List.foldl_map]
  rfl

theorem value?_ofConstants (values : List α) (name : List Char) :
    (ofConstants values name).value? = none := by
  simp [value?, ofConstants, isConstant, LengthTerm.isConstant, LengthTerm.symbolic]

variable [Number.IsExact α] {values : List α} {n : ℤ}

/-- **The folded terms** are the name and the integer that the constants add up to. -/
theorem folded_ofConstants
    (hsum : values.foldl (· + ·) (Number.ofInt 0) = (Number.ofInt n : α)) (name : List Char) :
    (ofConstants values name).folded = LengthTerm.symbolic (Number.ofInt 1) name ::
      if n = 0 then [] else [.constant (Number.ofInt n)] := by
  have hone : Number.isZero (Number.ofInt 1 : α) = false := by
    rw [Bool.eq_false_iff, Ne, Number.IsExact.isZero_ofInt]
    decide
  rw [folded, symbolTerms_ofConstants, constantPart_ofConstants, hsum,
    Number.IsExact.round_ofInt, List.filter_cons_of_pos (by simpa [LengthTerm.symbolic] using hone)]
  simp only [Number.IsExact.isZero_ofInt]
  rfl

/-- **The text of a name and an integer.** -/
theorem foldedText_ofConstants
    (hsum : values.foldl (· + ·) (Number.ofInt 0) = (Number.ofInt n : α)) (hname : name ≠ [])
    (keepZero : Bool) : (ofConstants values name).foldedText keepZero =
      if n = 0 then name else name ++ '+' :: Decimal.intText n := by
  have hone : Number.isOne (Number.ofInt 1 : α) = true := Number.IsExact.isOne_one
  have hrender : (LengthTerm.symbolic (Number.ofInt 1 : α) name).render = name := by
    simp only [LengthTerm.render, LengthTerm.symbolic, hone, if_true]
  rw [foldedText, foldedTextLess, value?_ofConstants]
  simp only [if_pos, folded_ofConstants hsum]
  by_cases hn : n = 0
  · simp [hn, renderTerms, hrender, hname]
  · have htext : (LengthTerm.constant (Number.ofInt n : α)).render = Decimal.intText n :=
      Number.IsExact.text_ofInt n
    simp [hn, renderTerms, hrender, htext, hname]

/-- **The splitter and the evaluator agree on numeric expressions**, unless an exponent with a `+`
is at the top level: with a name behind it, the expression is folded to a text that is worth its
value and the name. With such an exponent, a part of the expression has no value. -/
theorem isWorth_foldedText_append_name {text name : List Char} {n : ℤ}
    (h : evaluate? text = some (Number.ofInt n : α)) (hname : IsName name) :
    (¬HasPlusExponent text → ∀ assignment : Symbol → ℤ,
        IsWorth assignment .sum ((parse (text ++ '+' :: name) : LengthSum α).foldedText true)
          (n + assignment (.name name))) ∧
      (HasPlusExponent text →
        ∃ part ∈ splitTopLevel '+' text, (evaluate? part : Option α) = none) := by
  refine ⟨fun hplus assignment => ?_, fun hplus => ?_⟩
  · obtain ⟨values, hsum, hparse⟩ := exists_parse_eq_ofConstants h hplus hname
    have hsymbol : IsWorth assignment .sum name (assignment (.name name)) :=
      (IsWorth.name hname).ofUnary.toSum
    rw [hparse, foldedText_ofConstants hsum hname.ne_nil]
    split
    · rename_i hzero
      rwa [hzero, Int.cast_zero, zero_add]
    · rw [add_comm]
      exact hsymbol.add (IsWorth.intText n).toSum
  · obtain ⟨part, hmem, hnone⟩ := hplus.exists_part
    refine ⟨part, hmem, Option.eq_none_iff_forall_ne_some.mpr fun a ha => ?_⟩
    obtain ⟨⟨e, he, -⟩, -⟩ := evaluate?_eq_some_iff.mp ha
    exact hnone e he

/-- Literals of all forms, and an exponent with a `+` inside of parentheses and outside. -/
theorem isWorth_foldedText_append_name_thirty :
    (evaluate? "1.5e1+0x1e+5-(2e+1)".toList : Option ℚ) = some (Number.ofInt 30) ∧
      IsWorth (fun _ => 7) .sum
        ((parse ("1.5e1+0x1e+5-(2e+1)".toList ++ '+' :: ['N']) : LengthSum ℚ).foldedText true)
        ((30 : ℤ) + (7 : ℤ)) ∧
      (evaluate? "1e+5".toList : Option ℚ) = some (Number.ofInt 100000) ∧
      ∃ part ∈ splitTopLevel '+' "1e+5".toList, (evaluate? part : Option ℚ) = none := by
  have hname : IsName ['N'] := ⟨'N', [], rfl, rfl, by simp⟩
  have h : (evaluate? "1.5e1+0x1e+5-(2e+1)".toList : Option ℚ) = some (Number.ofInt 30) := by
    decide +kernel
  have h' : (evaluate? "1e+5".toList : Option ℚ) = some (Number.ofInt 100000) := by
    decide +kernel
  have hplus : ¬HasPlusExponent "1.5e1+0x1e+5-(2e+1)".toList := by decide +kernel
  have hplus' : HasPlusExponent "1e+5".toList := by decide +kernel
  exact ⟨h, (isWorth_foldedText_append_name h hname).1 hplus fun _ => 7, h',
    (isWorth_foldedText_append_name h' hname).2 hplus'⟩

-- Half of each literal cancels as a symbol, and the other half is added up.
example : (evaluate? "2*1e+1+-2*1e+1".toList : Option ℚ) = some 0 ∧
    (parse "2*1e+1+-2*1e+1+N".toList : LengthSum ℚ).foldedText true = "N+2".toList := by
  decide +kernel

end LengthSum

end Names

end WireCodec
