import Mathlib.Data.List.DropRight
import WireCodec.Length.Structure
import WireCodec.Proofs.Length.Folding

/-!
# Multiplying lengths

A count and a length are multiplied as texts, as sums, and as the counts of two dimensions. In every
case the product is worth the product of what the two are worth, as long as the texts stay together
behind and before the `*` that is put between them (`WireCodec.LengthSum.isWorth_products`).

Before the `*` a count gets no parentheses, so it has to be a product itself. A sum does not stay
together: only its last summand is multiplied (`WireCodec.isWorth_productText_sum`). Behind the `*`
a length gets parentheses if there is a `+`, a `-` or a `/` in it, so the one thing that does not
stay together is a remainder (`WireCodec.IsFactor`). Neither matters where numbers are multiplied
and no text is made (`WireCodec.LengthSum.IsMultipliedOut`).

What a sum becomes is one of three things (`WireCodec.LengthSum.IsMultiple`): itself, nothing, or a
single term. The text of a product is read as a single term again, as it has no `+` at its top level
(`WireCodec.LengthSum.exists_parse_eq`).
-/

namespace WireCodec

open Token Expression

variable {assignment : Symbol → ℤ} {text left right w count factor : List Char} {a b q r : ℚ}
  {c : Char}

/-! ### Trimming -/

namespace Text

theorem trim_eq (text : List Char) : trim text = (text.dropWhile isBlank).rdropWhile isBlank :=
  rfl

theorem mem_dropWhile (h : isBlank c = false) : c ∈ text.dropWhile isBlank ↔ c ∈ text := by
  refine ⟨fun hc => (List.dropWhile_suffix _).subset hc, fun hc => ?_⟩
  rw [← List.takeWhile_append_dropWhile (p := isBlank) (l := text), List.mem_append] at hc
  refine hc.resolve_left fun hblank => ?_
  rw [List.mem_takeWhile_imp hblank] at h
  exact absurd h (by decide)

/-- Trimming takes blanks away only. -/
theorem mem_trim (h : isBlank c = false) : c ∈ trim text ↔ c ∈ text := by
  rw [trim_eq, List.rdropWhile, List.mem_reverse, mem_dropWhile h, List.mem_reverse,
    mem_dropWhile h]

theorem trim_subset (text : List Char) : trim text ⊆ text := by
  rw [trim_eq]
  exact List.Subset.trans (List.rdropWhile_prefix _ _).subset (List.dropWhile_suffix _).subset

theorem not_mem_trim (h : c ∉ text) : c ∉ trim text :=
  fun hc => h (trim_subset text hc)

/-- A trimmed text has no blanks at its ends. -/
theorem trim_trim (text : List Char) : trim (trim text) = trim text := by
  -- It starts like the text without the blanks at its start, if it is not empty.
  have hstart : (trim text).dropWhile isBlank = trim text := by
    rw [List.dropWhile_eq_self_iff]
    intro hlength
    have hstarts : trim text <+: text.dropWhile isBlank := List.rdropWhile_prefix _ _
    rw [hstarts.getElem hlength]
    exact List.dropWhile_eq_self_iff.mp (List.dropWhile_idempotent _ _) _
  rw [trim_eq (trim text), hstart, trim_eq, List.rdropWhile_idempotent]

end Text

/-! ### Products of texts -/

/-- One of `+`, `-` and `/` is somewhere in the text. -/
def hasSumSign (text : List Char) : Bool :=
  text.any fun c => c == '+' || c == '-' || c == '/'

/-- **A text stays together behind a `*`**: it gets parentheses there, or it has no remainder at its
top level. -/
def IsFactor (text : List Char) : Prop :=
  hasSumSign (Text.trim text) = true ∨ '%' ∉ topLevel 0 (Text.trim text)

instance : Decidable (IsFactor text) :=
  inferInstanceAs (Decidable (_ ∨ _))

theorem isFactor_of_not_mem (h : '%' ∉ text) : IsFactor text :=
  .inr fun hmem => Text.not_mem_trim h (mem_of_mem_topLevel hmem)

/-- The text of a number has no `%` in it. -/
theorem not_mem_numberText (q : ℚ) : '%' ∉ Number.text q := by
  have hnat : ∀ n : ℕ, '%' ∉ Decimal.natText n := fun n h =>
    absurd (isDigit_of_mem_natText n _ h) (by decide)
  have hint : ∀ n : ℤ, '%' ∉ Decimal.intText n := by
    intro n
    rw [Decimal.intText]
    split <;> simp [hnat]
  change '%' ∉ rationalText q
  rw [rationalText]
  split
  · exact hint _
  · simp [hint, hnat]

/-- What is put behind a count to multiply it. -/
def multiplier (factor : List Char) : List Char :=
  if hasSumSign (Text.trim factor) then '*' :: '(' :: (Text.trim factor ++ [')'])
  else '*' :: Text.trim factor

theorem productText_eq (hfactor : Text.trim factor ≠ []) (hcount : Text.trim count ≠ [])
    (hone : Text.trim count ≠ ['1']) :
    productText count factor = Text.trim count ++ multiplier factor := by
  have hnone : ((Text.trim factor).isEmpty || (Text.trim count).isEmpty ||
      Text.trim count == ['1']) = false := by
    simp [hfactor, hcount, hone]
  simp only [productText, hnone, Bool.false_eq_true, if_false]
  by_cases hsign : hasSumSign (Text.trim factor) = true
  · rw [multiplier, if_pos hsign, if_pos (by exact hsign)]
    simp
  · rw [multiplier, if_neg hsign, if_neg (by exact hsign)]

namespace IsWorth

/-- A sum without signs in it is a product. -/
theorem product_of_hasSumSign (h : IsWorth assignment .sum text q)
    (hsign : hasSumSign text = false) : IsWorth assignment .product text q := by
  induction h using IsWorth.sum_induction with
  | ofProduct text q h => exact h
  | sum left w right a b t op hl ht hw hr =>
    obtain ⟨c, hc, hop⟩ := exists_of_sumOperator? ht
    have hmem := mem_of_mem_topLevel (List.mem_of_mem_tail (hl.mem_topLevel_of_signOf? hw hc right))
    have := List.any_eq_false.mp hsign c hmem
    rcases hop with ⟨rfl, -⟩ | ⟨rfl, -⟩ <;> exact absurd rfl this

/-- **A product goes on with a multiplier.** -/
theorem append_multiplier (hl : IsWorth assignment .product left a)
    (hr : IsWorth assignment .sum factor b) (hfactor : IsFactor factor) :
    IsWorth assignment .product (left ++ multiplier factor) (a * b) := by
  unfold multiplier
  split
  · exact hl.mul (isWritten_sign (c := '*') rfl) hr.trim.group
  · rename_i hsign
    have hproduct := hr.trim.product_of_hasSumSign (by simpa using hsign)
    exact hl.times hproduct (hfactor.resolve_left hsign)

/-- A text that is `1` is worth one. -/
theorem eq_one (h : IsWorth assignment .sum text q) (htext : Text.trim text = ['1']) : q = 1 := by
  have hone : IsWorth assignment .sum (Decimal.natText 1) (1 : ℕ) := (natText 1).toSum
  rw [← Nat.cast_one]
  exact (htext ▸ h.trim).unique hone

end IsWorth

/-- **A product of texts** is a product if the count is one other than `1`. -/
theorem isWorth_productText_of_ne_one (hcount : IsWorth assignment .product count a)
    (hfactor : IsWorth assignment .sum factor b) (hisFactor : IsFactor factor)
    (hone : Text.trim count ≠ ['1']) :
    IsWorth assignment .product (productText count factor) (a * b) := by
  rw [productText_eq hfactor.trim.ne_nil hcount.trim.ne_nil hone]
  exact hcount.trim.append_multiplier hfactor hisFactor

/-- Nothing is put before a length by a count of `1`. -/
theorem productText_of_one (hone : Text.trim count = ['1']) :
    productText count factor = Text.trim factor := by
  simp [productText, hone]

/-- **A sum before a length does not stay together**: its last product is multiplied only. -/
theorem isWorth_productText_sum {t : Token Operand} {op : BinaryOperator}
    (hl : IsWorth assignment .sum left a) (ht : sumOperator? t = some op)
    (hw : IsWritten Operand.IsSpelled t w) (hr : IsWorth assignment .product right b)
    (hcount : Text.trim count = left ++ (w ++ right))
    (hfactor : IsWorth assignment .sum factor q) (hisFactor : IsFactor factor) :
    IsWorth assignment .sum (productText count factor) (op.apply a (b * q)) := by
  have hsum : IsWorth assignment .sum (Text.trim count) (op.apply a b) := by
    rw [hcount]
    exact hl.sum ht hw hr
  have hone : Text.trim count ≠ ['1'] := by
    intro hone
    obtain ⟨c, hc, -⟩ := exists_of_sumOperator? ht
    have hmem := hl.mem_topLevel_of_signOf? hw hc right
    rw [← hcount, hone] at hmem
    exact absurd hmem (by simp [topLevel_zero_cons])
  rw [productText_eq hfactor.trim.ne_nil hsum.ne_nil hone, hcount, List.append_assoc,
    List.append_assoc]
  exact hl.sum ht hw (hr.append_multiplier hfactor hisFactor)

/-! ### Multiples of a sum -/

namespace LengthSum

variable {s s' : LengthSum ℚ} {t : LengthTerm ℚ} {n : ℤ}

open LengthTerm

/-- **What the folded terms of a sum are worth.** -/
noncomputable def foldedWorth (assignment : Symbol → ℤ) (s : LengthSum ℚ) : ℚ :=
  termsWorth assignment s.symbolTerms + roundAway s.constantTotal

theorem isWorth_foldedText_true (hsound : ∀ t ∈ s.terms, t.IsSound assignment) :
    IsWorth assignment .sum (s.foldedText true) (s.foldedWorth assignment) := by
  simpa [foldedText, foldedWorth] using isWorth_foldedTextLess hsound 0

/-- If the constants add up to an integer, folding keeps the worth. -/
theorem foldedWorth_eq (hsound : ∀ t ∈ s.terms, t.IsSound assignment) (hn : s.constantTotal = n) :
    s.foldedWorth assignment = termsWorth assignment s.terms := by
  obtain ⟨-, hworth⟩ := termsWorth_symbolTerms hsound
  rw [foldedWorth, ← hworth, hn, roundAway_intCast]

/-- A sum without symbols is worth an integer. -/
theorem foldedWorth_of_isConstant (hsound : ∀ t ∈ s.terms, t.IsSound assignment)
    (h : s.isConstant = true) : s.foldedWorth assignment = roundAway (total s.terms) := by
  rw [foldedWorth, termsWorth_symbolTerms_of_isConstant hsound h, zero_add,
    constantTotal_of_isConstant h]

theorem foldedWorth_of_nil (h : s.terms = []) : s.foldedWorth assignment = 0 := by
  rw [foldedWorth_of_isConstant (by simp [h]) (by simp [isConstant, h]), h, total_eq, List.map_nil,
    List.sum_nil, ← Int.cast_zero, roundAway_intCast]

theorem value?_of_isConstant (h : s.isConstant = true) :
    s.value? = some (roundAway (total s.terms)) := by
  rw [value?, if_pos h, Number.round_rat, Number.toInt_intCast]

theorem value?_of_not_isConstant (h : s.isConstant = false) : s.value? = none := by
  rw [value?, h, if_neg Bool.false_ne_true]

/-- **The folded terms** are sound. -/
theorem folded_sound (hsound : ∀ t ∈ s.terms, t.IsSound assignment) :
    (∀ t ∈ s.folded, t.IsSound assignment) ∧
      termsWorth assignment s.folded = s.foldedWorth assignment := by
  obtain ⟨hsymbols, hworth⟩ := foldedSymbols_sound hsound
  rw [folded_eq]
  constructor
  · intro t ht
    rcases List.mem_append.mp ht with ht | ht
    · exact (hsymbols t ht).1
    · rw [mem_integerTerms ht]
      exact isSound_constant _
  · rw [termsWorth_append, termsWorth_integerTerms, hworth, foldedWorth]

/-- If folding leaves any terms, their text is worth what they are. -/
theorem isWorth_renderTerms_folded (hsound : ∀ t ∈ s.terms, t.IsSound assignment)
    (hne : s.folded ≠ []) :
    IsWorth assignment .sum (renderTerms s.folded) (s.foldedWorth assignment) := by
  rw [← (folded_sound hsound).2]
  refine isWorth_renderTerms hne fun t ht => ?_
  rw [folded_eq] at ht
  exact isWorth_render_of_mem hsound ht

/-- With symbols in the sum, its text is that of the folded terms. -/
theorem foldedText_of_not_isConstant (h : s.isConstant = false) :
    s.foldedText false = renderTerms s.folded ∧
      s.foldedText true =
        if (renderTerms s.folded).isEmpty then ['0'] else renderTerms s.folded := by
  simp [foldedText, foldedTextLess, value?_of_not_isConstant h]

/-- **What a sum may become when it is multiplied**: it stays as it is, nothing is left of it, or it
becomes a single term. -/
inductive IsMultiple (assignment : Symbol → ℤ) (s : LengthSum ℚ) (a : ℚ) : LengthSum ℚ → Prop
  /-- It stays as it is. -/
  | same (h : a * s.foldedWorth assignment = s.foldedWorth assignment) : IsMultiple assignment s a s
  /-- Nothing is left. -/
  | nothing (h : a * s.foldedWorth assignment = 0) : IsMultiple assignment s a ⟨[]⟩
  /-- It becomes one term, with an integer before its symbol if it is multiplied by one. -/
  | term {t : LengthTerm ℚ}
      (hsymbol : ∀ symbol, t.symbol? = some symbol → HasWorth assignment symbol)
      (hworth : t.worth assignment = a * s.foldedWorth assignment)
      (hinteger : ∀ n : ℤ, a = n → t.IsSound assignment) : IsMultiple assignment s a ⟨[t]⟩

/-- A sound term of the right worth is a multiple. -/
theorem IsMultiple.of_isSound (h : t.IsSound assignment)
    (hworth : t.worth assignment = a * s.foldedWorth assignment) :
    IsMultiple assignment s a ⟨[t]⟩ :=
  .term (fun symbol hsymbol => (h symbol hsymbol).1) hworth fun _ _ => h

theorem terms_parse (source : List Char) : (parse source : LengthSum ℚ).terms = termsOf source := by
  rw [parse, add, List.nil_append]

/-- **A product is read as a single term.** -/
theorem exists_parse_eq (h : IsWorth assignment .product text q) :
    ∃ t, (parse text : LengthSum ℚ) = ⟨[t]⟩ ∧ t.IsSound assignment ∧ t.worth assignment = q := by
  have hparse : ∀ t : LengthTerm ℚ, termsOf text = [t] → (parse text : LengthSum ℚ) = ⟨[t]⟩ :=
    fun t ht => by rw [parse, add, ht, List.nil_append]
  cases hvalue : (evaluate? text : Option ℚ) with
  | some value =>
    exact ⟨constant value, hparse _ (by simp [termsOf, hvalue]), isSound_constant _,
      h.toSum.eq_of_evaluate? hvalue⟩
  | none =>
    obtain ⟨t, ht, hsound, hworth⟩ := LengthTerm.exists_parse? h.toSum
    have hplus : '+' ∉ topLevel 0 text := fun hmem => h.shape.2 _ hmem rfl
    refine ⟨t, hparse _ ?_, hsound, hworth⟩
    simp [termsOf, hvalue, splitTopLevel, splitFrom_eq_singleton hplus, ht]

/-- **The text of the folded terms stays together behind a `*`**, unless it is that of one symbol: a
constant is an integer, and several terms have a `+` between them. -/
theorem isFactor_renderTerms (hsound : ∀ t ∈ s.terms, t.IsSound assignment)
    (hsingle : ∀ t, s.folded = [t] → t.isConstant = true) : IsFactor (renderTerms s.folded) := by
  obtain ⟨hsymbols, -⟩ := foldedSymbols_sound hsound
  cases hfolded : s.folded with
  | nil => exact .inr (by simp [renderTerms])
  | cons t terms =>
    cases terms with
    | nil =>
      have hconstant := hsingle t hfolded
      have ht : t ∈ s.foldedSymbols ++ integerTerms (roundAway s.constantTotal) := by
        rw [← folded_eq, hfolded]
        exact List.mem_singleton_self t
      rcases List.mem_append.mp ht with ht | ht
      · exact absurd hconstant (by simp [(hsymbols t ht).2])
      · obtain rfl := mem_integerTerms ht
        refine isFactor_of_not_mem ?_
        simpa [renderTerms, render, constant] using not_mem_numberText _
    | cons t' terms =>
      refine .inl (List.any_eq_true.mpr ⟨'+', (Text.mem_trim (by decide)).mpr ?_, rfl⟩)
      simp [renderTerms, List.intercalate_cons_cons]

/-- The sum is left as it is by a count that is blank or `1`, and if it has no terms. -/
def isLeftAlone (s : LengthSum ℚ) (count : List Char) : Bool :=
  (Text.trim count).isEmpty || Text.trim count == ['1'] || s.isEmpty

theorem trim_ne_one (halone : s.isLeftAlone count = false) :
    Text.trim (Text.trim count) ≠ ['1'] := by
  rw [Text.trim_trim]
  intro hone
  exact absurd halone (by simp [isLeftAlone, hone])

theorem isMultiple_times_of_isLeftAlone (hcount : IsWorth assignment .sum count a)
    (halone : s.isLeftAlone count = true) :
    IsMultiple assignment s a (s.times count) := by
  have heq : s.times count = s := by
    rw [times]
    exact if_pos halone
  rw [heq]
  simp only [isLeftAlone, Bool.or_eq_true, List.isEmpty_iff, beq_iff_eq] at halone
  rcases halone with (hblank | hone) | hempty
  · exact absurd hblank hcount.trim.ne_nil
  · exact .same (by rw [hcount.eq_one hone, one_mul])
  · exact .same (by rw [foldedWorth_of_nil (List.isEmpty_iff.mp hempty), mul_zero])

/-- **A sum without symbols** is multiplied by the value of the count, or becomes its
coefficient. -/
theorem isMultiple_times_of_isConstant (hsound : ∀ t ∈ s.terms, t.IsSound assignment)
    (hcount : IsWorth assignment .sum count a) (halone : s.isLeftAlone count = false)
    (hconstant : s.isConstant = true) : IsMultiple assignment s a (s.times count) := by
  have htrim := hcount.trim
  have hworth := foldedWorth_of_isConstant hsound hconstant
  rw [isLeftAlone] at halone
  simp only [times, halone, value?_of_isConstant hconstant, Bool.false_eq_true, if_false]
  generalize roundAway (total s.terms) = value at hworth
  split
  · rename_i hzero
    exact .nothing (by rw [hworth, hzero, Int.cast_zero, mul_zero])
  · cases hvalue : (evaluate? (Text.trim count) : Option ℚ) with
    | some factor =>
      obtain rfl := htrim.eq_of_evaluate? hvalue
      refine .of_isSound (isSound_constant _) ?_
      rw [worth_constant, Number.ofInt_rat, hworth, mul_comm]
    | none =>
      refine .of_isSound (isSound_symbolic htrim.hasWorth rfl) ?_
      rw [worth_symbolic, Number.ofInt_rat, htrim.textWorth_eq, hworth, mul_comm]

/-- **A single symbol** has its coefficient multiplied by the value of the count, or gains the
count. -/
theorem isMultiple_times_of_symbol {coefficient : ℚ} {symbol : List Char}
    (hsound : ∀ t ∈ s.terms, t.IsSound assignment) (hcount : IsWorth assignment .sum count a)
    (halone : s.isLeftAlone count = false) (hconstant : s.isConstant = false)
    (hfolded : s.folded = [⟨coefficient, some symbol⟩])
    (hout : (evaluate? (Text.trim count) : Option ℚ) = none →
      IsWorth assignment .product count a ∧ IsFactor symbol) :
    IsMultiple assignment s a (s.times count) := by
  have htrim := hcount.trim
  have hone := trim_ne_one halone
  obtain ⟨hterms, hworth⟩ := folded_sound hsound
  obtain ⟨hsymbol, n, hn⟩ := hterms ⟨coefficient, some symbol⟩ (by simp [hfolded]) symbol rfl
  have hworth : coefficient * textWorth assignment symbol = s.foldedWorth assignment := by
    rw [← hworth, hfolded, termsWorth_cons, termsWorth_nil, add_zero]
    rfl
  rw [isLeftAlone] at halone
  simp only [times, halone, value?_of_not_isConstant hconstant, hfolded, Bool.false_eq_true,
    if_false]
  cases hvalue : (evaluate? (Text.trim count) : Option ℚ) with
  | some factor =>
    obtain rfl := htrim.eq_of_evaluate? hvalue
    refine .term (fun symbol' hsymbol' => ?_) ?_ fun m hm => ?_
    · obtain rfl := Option.some.inj hsymbol'
      exact hsymbol
    · rw [worth_symbolic, ← hworth, mul_right_comm, mul_comm]
    · have hproduct : coefficient * factor = (n * m : ℤ) := by
        rw [show coefficient = n from hn, hm, Int.cast_mul]
      exact isSound_symbolic hsymbol hproduct
  | none =>
    -- Without a value the count is put into the symbol.
    obtain ⟨hproduct, hfactor⟩ := hout hvalue
    have htext := (isWorth_productText_of_ne_one hproduct.trim hsymbol hfactor hone).toSum
    refine .of_isSound (isSound_symbolic htext.hasWorth hn) ?_
    rw [worth_symbolic, htext.textWorth_eq, ← hworth, mul_left_comm]

/-- Any other sum is put behind the count as a text, which is read again. -/
theorem times_eq_parse (halone : s.isLeftAlone count = false) (hconstant : s.isConstant = false)
    (hsingle : ∀ t, s.folded = [t] → t.isConstant = true) :
    s.times count = parse (productText (Text.trim count) (renderTerms s.folded)) := by
  rw [isLeftAlone] at halone
  simp only [times, halone, value?_of_not_isConstant hconstant,
    (foldedText_of_not_isConstant hconstant).1, Bool.false_eq_true, if_false]
  split
  · rename_i hfolded
    exact absurd (hsingle _ hfolded) (by simp [LengthTerm.isConstant])
  · rfl

/-- **A sum that has cancelled** stays without terms. -/
theorem isMultiple_times_of_folded_nil (hsound : ∀ t ∈ s.terms, t.IsSound assignment)
    (halone : s.isLeftAlone count = false) (hconstant : s.isConstant = false)
    (hfolded : s.folded = []) : IsMultiple assignment s a (s.times count) := by
  have hzero : s.foldedWorth assignment = 0 := by
    rw [← (folded_sound hsound).2, hfolded, termsWorth_nil]
  have hnothing : (parse (productText (Text.trim count) []) : LengthSum ℚ) = ⟨[]⟩ := rfl
  rw [times_eq_parse halone hconstant (by simp [hfolded]), hfolded, renderTerms, List.map_nil,
    List.intercalate_nil, hnothing]
  exact .nothing (by rw [hzero, mul_zero])

/-- **The text of any other sum** and a count is the text of a product. -/
theorem isMultiple_times_of_text (hsound : ∀ t ∈ s.terms, t.IsSound assignment)
    (hcount : IsWorth assignment .product count a) (halone : s.isLeftAlone count = false)
    (hconstant : s.isConstant = false) (hne : s.folded ≠ [])
    (hsingle : ∀ t, s.folded = [t] → t.isConstant = true) :
    IsMultiple assignment s a (s.times count) := by
  obtain ⟨t, hparse, ht, hworth⟩ := exists_parse_eq (isWorth_productText_of_ne_one hcount.trim
    (isWorth_renderTerms_folded hsound hne) (isFactor_renderTerms hsound hsingle)
    (trim_ne_one halone))
  rw [times_eq_parse halone hconstant hsingle, hparse]
  exact .of_isSound ht hworth

/-- **Nothing is put into a text to multiply the sum**: it is a constant, it has cancelled, or it is
a symbol that gets another coefficient. -/
def IsMultipliedOut (s : LengthSum ℚ) (count : List Char) : Prop :=
  s.isConstant = true ∨ s.folded = [] ∨
    (evaluate? (Text.trim count) : Option ℚ).isSome = true ∧
      ∃ t, s.folded = [t] ∧ t.isConstant = false

/-- **A sum multiplied by a count** is a multiple of it. -/
theorem isMultiple_times (hsound : ∀ t ∈ s.terms, t.IsSound assignment)
    (hcount : IsWorth assignment .sum count a)
    (hout : s.IsMultipliedOut count ∨ IsWorth assignment .product count a ∧
      ∀ t symbol, s.folded = [t] → t.symbol? = some symbol → IsFactor symbol) :
    IsMultiple assignment s a (s.times count) := by
  cases halone : s.isLeftAlone count with
  | true => exact isMultiple_times_of_isLeftAlone hcount halone
  | false =>
    cases hconstant : s.isConstant with
    | true => exact isMultiple_times_of_isConstant hsound hcount halone hconstant
    | false =>
      by_cases hnil : s.folded = []
      · exact isMultiple_times_of_folded_nil hsound halone hconstant hnil
      by_cases hsymbol : ∃ coefficient symbol, s.folded = [⟨coefficient, some symbol⟩]
      · obtain ⟨coefficient, symbol, hfolded⟩ := hsymbol
        refine isMultiple_times_of_symbol hsound hcount halone hconstant hfolded fun hvalue => ?_
        rcases hout with (htrue | hempty | ⟨hsome, -⟩) | ⟨hproduct, hfactor⟩
        · exact absurd htrue (by simp [hconstant])
        · exact absurd hempty hnil
        · exact absurd hsome (by simp [hvalue])
        · exact ⟨hproduct, hfactor _ symbol hfolded rfl⟩
      · have hsingle : ∀ t, s.folded = [t] → t.isConstant = true := by
          rintro ⟨coefficient, symbol?⟩ hfolded
          cases symbol? with
          | none => rfl
          | some symbol => exact absurd ⟨coefficient, symbol, hfolded⟩ hsymbol
        rcases hout with (htrue | hempty | ⟨-, t, hfolded, hother⟩) | ⟨hproduct, -⟩
        · exact absurd htrue (by simp [hconstant])
        · exact absurd hempty hnil
        · exact absurd (hsingle t hfolded) (by simp [hother])
        · exact isMultiple_times_of_text hsound hproduct halone hconstant hnil hsingle

/-- The count `2+3` of a sum whose symbols have cancelled: its constant `2` becomes `2+3*2`. -/
example : ((parse "N+-1*N+2".toList : LengthSum ℚ).times "2+3".toList).foldedText true =
    "8".toList := by decide +kernel

/-! ### The texts of products -/

/-- **The text of a single term.** The coefficient of its symbol need not be an integer. -/
theorem isWorth_foldedText_singleton
    (hsymbol : ∀ symbol, t.symbol? = some symbol → HasWorth assignment symbol) :
    IsWorth assignment .sum ((⟨[t]⟩ : LengthSum ℚ).foldedText true)
      (if t.isConstant then (roundAway (t.worth assignment) : ℚ) else t.worth assignment) := by
  obtain ⟨coefficient, symbol?⟩ := t
  cases symbol? with
  | none =>
    have hsound : ∀ t ∈ (⟨[constant coefficient]⟩ : LengthSum ℚ).terms, t.IsSound assignment := by
      simpa using isSound_constant coefficient
    have := isWorth_foldedText_true hsound
    rw [foldedWorth_of_isConstant hsound rfl, total_eq] at this
    simpa [constant, LengthTerm.isConstant, LengthTerm.worth] using this
  | some symbol =>
    have hconstant : (⟨[⟨coefficient, some symbol⟩]⟩ : LengthSum ℚ).isConstant = false := rfl
    have hterms : (⟨[⟨coefficient, some symbol⟩]⟩ : LengthSum ℚ).symbolTerms =
        [⟨coefficient, some symbol⟩] := rfl
    have htotal : (⟨[⟨coefficient, some symbol⟩]⟩ : LengthSum ℚ).constantTotal = (0 : ℤ) := by
      rw [constantTotal, List.filter_cons_of_neg (by simp [LengthTerm.isConstant]), total_eq]
      simp
    have hnone : integerTerms 0 = [] := rfl
    rw [(foldedText_of_not_isConstant hconstant).2, folded_eq, htotal, roundAway_intCast, hnone,
      List.append_nil, foldedSymbols, hterms]
    change IsWorth assignment .sum _ (coefficient * textWorth assignment symbol)
    by_cases hzero : coefficient = 0
    · -- A coefficient of zero leaves nothing but the text of a zero.
      rw [List.filter_cons_of_neg (by simpa using Number.isZero_rat_iff.mpr hzero), hzero, zero_mul,
        ← Int.cast_zero]
      exact (IsWorth.intText 0).toSum
    · have hnonzero : Number.isZero coefficient = false := by
        rw [← Bool.not_eq_true, Number.isZero_rat_iff]
        exact hzero
      have hrender : IsWorth assignment .sum (LengthTerm.render ⟨coefficient, some symbol⟩)
          (coefficient * textWorth assignment symbol) :=
        LengthTerm.isWorth_render (hsymbol symbol rfl) rfl
      have htext : renderTerms [(⟨coefficient, some symbol⟩ : LengthTerm ℚ)] =
          LengthTerm.render ⟨coefficient, some symbol⟩ := by simp [renderTerms]
      rw [List.filter_cons_of_pos (by simpa using hnonzero), List.filter_nil, htext,
        if_neg (by simpa using hrender.ne_nil)]
      exact hrender

/-- **The text of a multiple** is worth the product, rounded if it has no symbols. -/
theorem IsMultiple.isWorth_text (hsound : ∀ t ∈ s.terms, t.IsSound assignment)
    (h : IsMultiple assignment s a s') :
    IsWorth assignment .sum (s'.foldedText true)
      (if s'.isConstant then (roundAway (a * s.foldedWorth assignment) : ℚ)
      else a * s.foldedWorth assignment) := by
  cases h with
  | same h =>
    have := isWorth_foldedText_true hsound
    rw [h]
    split
    · rename_i hconstant
      rw [foldedWorth_of_isConstant hsound hconstant] at this ⊢
      rwa [roundAway_intCast]
    · exact this
  | nothing h =>
    have hnone : ∀ t ∈ (⟨[]⟩ : LengthSum ℚ).terms, t.IsSound assignment := by simp
    have := isWorth_foldedText_true hnone
    rw [foldedWorth_of_nil rfl, ← Int.cast_zero] at this
    rwa [h, ← Int.cast_zero, roundAway_intCast, ite_self]
  | @term t hsymbol hworth =>
    rw [← hworth]
    have hconstant : (⟨[t]⟩ : LengthSum ℚ).isConstant = t.isConstant := by simp [isConstant]
    rw [hconstant]
    exact isWorth_foldedText_singleton hsymbol

/-- **The count of a two-dimensional array** is worth the product of its two counts. -/
theorem isWorth_arrayCount (hl : IsWorth assignment .sum left a)
    (hr : IsWorth assignment .sum right b)
    (hout : (evaluate? (Text.trim left) : Option ℚ).isSome = true ∧
        (evaluate? (Text.trim right) : Option ℚ).isSome = true ∨
      IsWorth assignment .product left a ∧ IsWorth assignment .product right b ∧
        '%' ∉ topLevel 0 (Text.trim right)) :
    IsWorth assignment .product (StructureLength.arrayCount ℚ left right) (a * b) := by
  have hleft : (Text.trim left).isEmpty = false := by simpa using hl.trim.ne_nil
  have hright : (Text.trim right).isEmpty = false := by simpa using hr.trim.ne_nil
  simp only [StructureLength.arrayCount, hleft, hright, Bool.false_eq_true, if_false]
  split
  · rename_i x y hx hy
    rw [hl.trim.eq_of_evaluate? hx, hr.trim.eq_of_evaluate? hy]
    exact IsWorth.numberText _
  · rename_i hnone
    rcases hout with ⟨hx, hy⟩ | ⟨hl, hr, hremainder⟩
    · obtain ⟨x, hx⟩ := Option.isSome_iff_exists.mp hx
      obtain ⟨y, hy⟩ := Option.isSome_iff_exists.mp hy
      exact absurd hy (hnone x y hx)
    · exact hl.trim.times hr.trim hremainder

/-- **Multiplication is multiplication**, for texts, sums and counts, of all texts that stay
together. A sum before a length does not: only its last summand is multiplied. -/
theorem isWorth_products (hl : IsWorth assignment .sum left a)
    (hr : IsWorth assignment .sum right b) :
    (Text.trim left = ['1'] ∨ IsWorth assignment .product left a ∧ IsFactor right →
      IsWorth assignment .sum (productText left right) (a * b)) ∧
    (∀ r, IsWorth assignment .sum ((parse right : LengthSum ℚ).foldedText true) r →
      (parse right).IsMultipliedOut left ∨ IsWorth assignment .product left a ∧
        (∀ t symbol, (parse right : LengthSum ℚ).folded = [t] → t.symbol? = some symbol →
          IsFactor symbol) →
      IsWorth assignment .sum (((parse right : LengthSum ℚ).times left).foldedText true)
        (if ((parse right : LengthSum ℚ).times left).isConstant then (roundAway (a * r) : ℚ)
        else a * r)) ∧
    ((evaluate? (Text.trim left) : Option ℚ).isSome = true ∧
        (evaluate? (Text.trim right) : Option ℚ).isSome = true ∨
      IsWorth assignment .product left a ∧ IsWorth assignment .product right b ∧
        '%' ∉ topLevel 0 (Text.trim right) →
      IsWorth assignment .sum (StructureLength.arrayCount ℚ left right) (a * b)) ∧
    (∀ start w rest t op c d, Text.trim left = start ++ (w ++ rest) →
      sumOperator? t = some op → IsWritten Operand.IsSpelled t w →
      IsWorth assignment .sum start c → IsWorth assignment .product rest d → IsFactor right →
      IsWorth assignment .sum (productText left right) (op.apply c (d * b))) := by
  refine ⟨fun htext => ?_, fun r hfolded hout => ?_, fun hout => ?_,
    fun start w rest t op c d htrim ht hw hstart hrest hfactor => ?_⟩
  · by_cases hone : Text.trim left = ['1']
    · rw [productText_of_one hone, hl.eq_one hone, one_mul]
      exact hr.trim
    · obtain ⟨hproduct, hfactor⟩ := htext.resolve_left hone
      exact (isWorth_productText_of_ne_one hproduct hr hfactor hone).toSum
  · obtain ⟨hsound, -⟩ := termsOf_sound hr
    have hterms : ∀ t ∈ (parse right : LengthSum ℚ).terms, t.IsSound assignment := by
      rwa [terms_parse]
    rw [hfolded.unique (isWorth_foldedText_true hterms)]
    exact (isMultiple_times hterms hl hout).isWorth_text hterms
  · exact (isWorth_arrayCount hl hr hout).toSum
  · exact isWorth_productText_sum hstart ht hw hrest htrim hr hfactor

/-- A product that is a count, and a length that is a quotient. As a count, `N+2` is worth seven,
but it makes the length one that is worth eleven. -/
theorem isWorth_products_thirty :
    IsWorth (fun _ => 5) .product "2*N".toList 10 ∧
      IsWorth (fun _ => 5) .product "(N+1)/2".toList 3 ∧ IsFactor "(N+1)/2".toList ∧
      IsWorth (fun _ => 5) .sum (productText "2*N".toList "(N+1)/2".toList) (10 * 3) ∧
      IsWorth (fun _ => 5) .sum
        (((parse "(N+1)/2".toList : LengthSum ℚ).times "2*N".toList).foldedText true) (10 * 3) ∧
      IsWorth (fun _ => 5) .sum
        (StructureLength.arrayCount ℚ "2*N".toList "(N+1)/2".toList) (10 * 3) ∧
      IsWorth (fun _ => 5) .sum "N+2".toList 7 ∧
      IsWorth (fun _ => 5) .sum (productText "N+2".toList "(N+1)/2".toList) (5 + 2 * 3) := by
  have hdigit : ∀ n : ℕ, IsWorth (fun _ => 5) .unary (Decimal.natText n) n := IsWorth.natText
  have hname : IsWorth (fun _ => 5) .unary ['N'] (5 : ℤ) :=
    IsWorth.name ⟨'N', [], rfl, rfl, by simp⟩
  have hleft : IsWorth (fun _ => 5) .product "2*N".toList 10 := by
    have := (hdigit 2).ofUnary.mul (IsWorth.isWritten_sign (c := '*') rfl) hname
    norm_num at this
    exact this
  have hright : IsWorth (fun _ => 5) .product "(N+1)/2".toList 3 := by
    have := (hname.toSum.add (hdigit 1).toSum).group.ofUnary.product
      (rfl : productOperator? Token.slash = some .divide)
      (IsWorth.isWritten_sign (c := '/') rfl) (hdigit 2) (by simp [BinaryOperator.Accepts])
    norm_num [BinaryOperator.apply] at this
    exact this
  have hsum : IsWorth (fun _ => 5) .sum "N+2".toList 7 := by
    have := hname.toSum.add (hdigit 2).toSum
    norm_num at this
    exact this
  have hfactor : IsFactor "(N+1)/2".toList := by decide
  have hfolded : (parse "(N+1)/2".toList : LengthSum ℚ).folded =
      [⟨1, some "(N+1)/2".toList⟩] := by decide +kernel
  have htext : (parse "(N+1)/2".toList : LengthSum ℚ).foldedText true = "(N+1)/2".toList := by
    decide +kernel
  have hconstant :
      ((parse "(N+1)/2".toList : LengthSum ℚ).times "2*N".toList).isConstant = false := by
    decide +kernel
  obtain ⟨hproduct, htimes, hcount, -⟩ := isWorth_products hleft.toSum hright.toSum
  obtain ⟨-, -, -, hlast⟩ := isWorth_products hsum hright.toSum
  refine ⟨hleft, hright, hfactor, hproduct (.inr ⟨hleft, hfactor⟩), ?_,
    hcount (.inr ⟨hleft, hright, by decide⟩), hsum, ?_⟩
  · have := htimes 3 (by rw [htext]; exact hright.toSum)
      (.inr ⟨hleft, fun t symbol ht hsymbol => ?_⟩)
    · rwa [hconstant, if_neg Bool.false_ne_true] at this
    · rw [hfolded] at ht
      obtain rfl := List.singleton_inj.mp ht
      obtain rfl := Option.some.inj hsymbol
      exact hfactor
  · exact hlast ['N'] ['+'] ['2'] plus .add 5 2 rfl rfl (IsWorth.isWritten_sign (c := '+') rfl)
      hname.toSum (hdigit 2).ofUnary hfactor

end LengthSum

end WireCodec
