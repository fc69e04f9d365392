import WireCodec.Proofs.Length.Rendering

/-!
# Folding keeps the worth of a length

A length is read from a formula, folded and written as a text again. The text is a formula, and it
is worth what the source is worth up to the rounding of the constants
(`WireCodec.LengthSum.isWorth_foldedText`).

Reading the source gives terms that are sound and together worth what the source is
(`WireCodec.LengthSum.termsOf_sound`). Folding brings terms with the same symbol together, and a
symbol is worth one number, so the terms with symbols keep what they are worth
(`WireCodec.LengthSum.termsWorth_symbolTerms`). The constants keep it only if they add up to an
integer. What is left of both is the folded list: symbols with integers before them, and one integer
(`WireCodec.LengthSum.folded_eq`), from which any other integer may be taken away
(`WireCodec.LengthSum.takeAway_eq`).
-/

namespace WireCodec

open Expression

variable {assignment : Symbol → ℤ} {text source : List Char} {q : ℚ}

/-! ### Reading terms -/

namespace LengthTerm

variable {t : LengthTerm ℚ}

theorem ofProduct?_sound (h : IsWorth assignment .sum text q) (ht : ofProduct? text = some t) :
    t.IsSound assignment ∧ t.worth assignment = q := by
  unfold ofProduct? at ht
  split at ht
  · rename_i hproduct
    obtain ⟨hproduct, hquotient⟩ := h.product_of_isProduct hproduct
    split at ht
    · exact absurd ht (by simp)
    · rename_i place hplace
      obtain ⟨a, b, ha, hb, rfl⟩ := hproduct.findTopLevel?_times hquotient hplace
      simp only at ht
      split at ht
      · exact absurd ht (by simp)
      · rename_i c hc
        split at ht
        · rename_i hintegral
          rw [Bool.and_eq_true] at hintegral
          obtain rfl := Option.some.inj ht
          obtain rfl := ha.trim.eq_of_evaluate? hc
          obtain ⟨n, hn⟩ := Number.isIntegral_rat_iff.mp hintegral.1
          refine ⟨isSound_symbolic hb.trim.hasWorth hn, ?_⟩
          rw [worth_symbolic, hb.trim.textWorth_eq]
        · exact absurd ht (by simp)
  · exact absurd ht (by simp)

/-- **The term of a formula** is sound and has its worth. -/
theorem exists_parse? (h : IsWorth assignment .sum text q) :
    ∃ t, parse? text = some t ∧ t.IsSound assignment ∧ t.worth assignment = q := by
  have htrim := h.trim
  have hne : (Text.trim text).isEmpty = false := by simpa using htrim.ne_nil
  simp only [parse?, hne, Bool.false_eq_true, if_false]
  cases hvalue : (evaluate? (Text.trim text) : Option ℚ) with
  | some value => exact ⟨constant value, rfl, isSound_constant _, htrim.eq_of_evaluate? hvalue⟩
  | none =>
    refine ⟨_, rfl, ?_⟩
    -- The text is cut as a product, or it is a symbol as a whole.
    cases hproduct : (ofProduct? (Text.trim text) : Option (LengthTerm ℚ)) with
    | some t => exact ofProduct?_sound htrim hproduct
    | none =>
      refine ⟨isSound_symbolic htrim.hasWorth rfl, ?_⟩
      rw [Option.getD_none, worth_symbolic, htrim.textWorth_eq, Number.ofInt_rat, Int.cast_one,
        one_mul]

end LengthTerm

namespace LengthSum

variable {s : LengthSum ℚ} {terms terms' : List (LengthTerm ℚ)}

@[simp] theorem termsWorth_nil : termsWorth assignment [] = 0 := rfl

@[simp] theorem termsWorth_cons (t : LengthTerm ℚ) :
    termsWorth assignment (t :: terms) = t.worth assignment + termsWorth assignment terms := by
  simp [termsWorth]

theorem termsWorth_append :
    termsWorth assignment (terms ++ terms') =
      termsWorth assignment terms + termsWorth assignment terms' := by
  simp [termsWorth]

/-- **The terms of a formula** are sound, and together have its worth. -/
theorem termsOf_sound (h : IsWorth assignment .sum source q) :
    (∀ t ∈ (termsOf source : List (LengthTerm ℚ)), t.IsSound assignment) ∧
      termsWorth assignment (termsOf source) = q := by
  unfold termsOf
  split
  · rename_i value hvalue
    refine ⟨fun t ht => ?_, ?_⟩
    · obtain rfl := List.mem_singleton.mp ht
      exact LengthTerm.isSound_constant _
    · rw [termsWorth_cons, termsWorth_nil, add_zero]
      exact h.eq_of_evaluate? hvalue
  · obtain ⟨hparts, rfl⟩ := h.sum_splitTopLevel
    generalize splitTopLevel '+' source = parts at hparts
    induction parts with
    | nil => exact ⟨by simp, rfl⟩
    | cons part parts ih =>
      obtain ⟨hpart, hparts⟩ := List.forall_mem_cons.mp hparts
      obtain ⟨t, hparse, hsound, hworth⟩ := LengthTerm.exists_parse? hpart
      obtain ⟨hrest, hsum⟩ := ih hparts
      rw [List.filterMap_cons_some hparse]
      refine ⟨List.forall_mem_cons.mpr ⟨hsound, hrest⟩, ?_⟩
      rw [termsWorth_cons, hworth, hsum, List.map_cons, List.sum_cons]

/-! ### Bringing terms together -/

theorem total_eq (terms : List (LengthTerm ℚ)) :
    total terms = (terms.map LengthTerm.coefficient).sum := by
  have hkey : ∀ start : ℚ, terms.foldl (fun sum t => sum + t.coefficient) start =
      start + (terms.map LengthTerm.coefficient).sum := by
    induction terms with
    | nil => simp
    | cons t terms ih =>
      intro start
      rw [List.foldl_cons, ih, List.map_cons, List.sum_cons, add_assoc]
  rw [total, hkey, Number.ofInt_rat, Int.cast_zero, zero_add]

/-- All terms have a symbol with an integer before it. -/
def AreSymbols (assignment : Symbol → ℤ) (terms : List (LengthTerm ℚ)) : Prop :=
  ∀ t ∈ terms, t.IsSound assignment ∧ t.isConstant = false

theorem areSymbols_nil : AreSymbols assignment [] := by
  simp [AreSymbols]

theorem areSymbols_cons {t : LengthTerm ℚ} :
    AreSymbols assignment (t :: terms) ↔
      (t.IsSound assignment ∧ t.isConstant = false) ∧ AreSymbols assignment terms :=
  List.forall_mem_cons

theorem mergeSymbol_sound {coefficient : ℚ} {symbol : List Char}
    (hsound : (LengthTerm.symbolic coefficient symbol).IsSound assignment)
    (hterms : AreSymbols assignment terms) :
    AreSymbols assignment (mergeSymbol coefficient symbol terms) ∧
      termsWorth assignment (mergeSymbol coefficient symbol terms) =
        termsWorth assignment terms + coefficient * textWorth assignment symbol := by
  induction terms with
  | nil =>
    refine ⟨areSymbols_cons.mpr ⟨⟨hsound, rfl⟩, areSymbols_nil⟩, ?_⟩
    rw [mergeSymbol, termsWorth_cons, termsWorth_nil, add_zero, zero_add]
    rfl
  | cons t terms ih =>
    obtain ⟨⟨ht, hconstant⟩, hrest⟩ := areSymbols_cons.mp hterms
    rw [mergeSymbol]
    split
    · -- The texts of the symbols are the same, and so are their worths.
      rename_i hsymbol
      refine ⟨areSymbols_cons.mpr ⟨⟨?_, hconstant⟩, hrest⟩, ?_⟩
      · intro symbol' hsymbol'
        obtain ⟨hworth, n, hn⟩ := ht symbol' hsymbol'
        obtain ⟨-, m, hm⟩ := hsound symbol rfl
        have hm : coefficient = m := hm
        exact ⟨hworth, n + m, by simp [hn, hm]⟩
      · rw [termsWorth_cons, termsWorth_cons, LengthTerm.worth, LengthTerm.worth, hsymbol]
        simp only
        ring
    · obtain ⟨hsymbols, hworth⟩ := ih hrest
      refine ⟨areSymbols_cons.mpr ⟨⟨ht, hconstant⟩, hsymbols⟩, ?_⟩
      rw [termsWorth_cons, termsWorth_cons, hworth, add_assoc]

/-- The constants of a sum added up, before they are rounded. -/
def constantTotal (s : LengthSum ℚ) : ℚ :=
  total (s.terms.filter LengthTerm.isConstant)

/-- **Terms with symbols keep their worth** when they are brought together. -/
theorem termsWorth_symbolTerms (hsound : ∀ t ∈ s.terms, t.IsSound assignment) :
    AreSymbols assignment s.symbolTerms ∧
      termsWorth assignment s.symbolTerms + s.constantTotal = termsWorth assignment s.terms := by
  -- The induction is on the terms, with what has been brought together before them.
  have hkey : ∀ start, AreSymbols assignment start →
      AreSymbols assignment (s.terms.foldl mergeTerm start) ∧
        termsWorth assignment (s.terms.foldl mergeTerm start) + s.constantTotal =
          termsWorth assignment start + termsWorth assignment s.terms := by
    rw [constantTotal, total_eq]
    generalize s.terms = terms at hsound
    induction terms with
    | nil => exact fun start hstart => ⟨hstart, rfl⟩
    | cons t terms ih =>
      intro start hstart
      obtain ⟨ht, hothers⟩ := List.forall_mem_cons.mp hsound
      have hrest := ih hothers
      obtain ⟨coefficient, symbol?⟩ := t
      rw [List.foldl_cons, termsWorth_cons]
      cases symbol? with
      | none =>
        -- A constant goes to the total, and leaves the symbols as they are.
        obtain ⟨hsymbols, hworth⟩ := hrest start hstart
        refine ⟨hsymbols, ?_⟩
        rw [List.filter_cons_of_pos rfl, List.map_cons, List.sum_cons, add_left_comm]
        rw [show mergeTerm start ⟨coefficient, none⟩ = start from rfl, hworth, add_left_comm]
        rfl
      | some symbol =>
        obtain ⟨hmerged, hworth⟩ := mergeSymbol_sound ht hstart
        obtain ⟨hsymbols, hworth'⟩ := hrest _ hmerged
        refine ⟨hsymbols, ?_⟩
        rw [List.filter_cons_of_neg (by simp [LengthTerm.isConstant])]
        rw [show mergeTerm start ⟨coefficient, some symbol⟩ =
          mergeSymbol coefficient symbol start from rfl, hworth', hworth, add_assoc]
        rfl
  obtain ⟨hsymbols, hworth⟩ := hkey [] areSymbols_nil
  exact ⟨hsymbols, by rw [symbolTerms, hworth, termsWorth_nil, zero_add]⟩

/-! ### The folded terms -/

/-- The terms that an integer is: none if it is zero. -/
def integerTerms (n : ℤ) : List (LengthTerm ℚ) :=
  if n = 0 then [] else [.constant n]

/-- The symbols of the folded terms. -/
def foldedSymbols (s : LengthSum ℚ) : List (LengthTerm ℚ) :=
  s.symbolTerms.filter fun t => !Number.isZero t.coefficient

theorem termsWorth_integerTerms (n : ℤ) : termsWorth assignment (integerTerms n) = n := by
  unfold integerTerms
  split
  · rename_i hzero
    rw [hzero, termsWorth_nil, Int.cast_zero]
  · rw [termsWorth_cons, termsWorth_nil, add_zero]
    rfl

theorem folded_eq (s : LengthSum ℚ) :
    s.folded = s.foldedSymbols ++ integerTerms (roundAway s.constantTotal) := by
  have hzero : Number.isZero s.constantPart = true ↔ roundAway s.constantTotal = 0 := by
    rw [Number.isZero_rat_iff]
    exact Int.cast_eq_zero
  rw [folded, foldedSymbols, integerTerms]
  congr 1
  by_cases h : roundAway s.constantTotal = 0
  · rw [if_pos h, if_pos (hzero.mpr h)]
  · rw [if_neg h, if_neg fun hz => h (hzero.mp hz)]
    rfl

theorem foldedSymbols_sound (hsound : ∀ t ∈ s.terms, t.IsSound assignment) :
    AreSymbols assignment s.foldedSymbols ∧
      termsWorth assignment s.foldedSymbols = termsWorth assignment s.symbolTerms := by
  obtain ⟨hsymbols, -⟩ := termsWorth_symbolTerms hsound
  rw [foldedSymbols]
  generalize s.symbolTerms = terms at hsymbols
  induction terms with
  | nil => exact ⟨hsymbols, rfl⟩
  | cons t terms ih =>
    obtain ⟨ht, hothers⟩ := areSymbols_cons.mp hsymbols
    obtain ⟨hrest, hworth⟩ := ih hothers
    cases hzero : Number.isZero t.coefficient with
    | true =>
      rw [List.filter_cons_of_neg (by simp [hzero])]
      refine ⟨hrest, ?_⟩
      have hcoefficient := Number.isZero_rat_iff.mp hzero
      have hnone : t.worth assignment = 0 := by
        unfold LengthTerm.worth
        split <;> simp [hcoefficient]
      rw [termsWorth_cons, hnone, zero_add, hworth]
    | false =>
      rw [List.filter_cons_of_pos (by simp [hzero]), termsWorth_cons, termsWorth_cons, hworth]
      exact ⟨areSymbols_cons.mpr ⟨ht, hrest⟩, rfl⟩

/-- Dropping zeros keeps the symbols, and the integer behind them unless it is zero. -/
theorem filter_append_integer (n : ℤ) (hterms : ∀ t ∈ terms, t.isConstant = false) :
    (terms ++ [LengthTerm.constant (n : ℚ)]).filter
        (fun t => !t.isConstant || !Number.isZero (Number.round t.coefficient)) =
      terms ++ integerTerms n := by
  have hkeep : terms.filter
      (fun t => !t.isConstant || !Number.isZero (Number.round t.coefficient)) = terms := by
    refine List.filter_eq_self.mpr fun t ht => ?_
    rw [hterms t ht, Bool.not_false, Bool.true_or]
  have hzero : Number.isZero (Number.round (n : ℚ)) = true ↔ n = 0 := by
    rw [Number.isZero_rat_iff, Number.round_rat, roundAway_intCast, Int.cast_eq_zero]
  rw [List.filter_append, hkeep, integerTerms]
  congr 1
  by_cases hn : n = 0
  · rw [if_pos hn]
    exact List.filter_cons_of_neg (by
      simpa [LengthTerm.constant, LengthTerm.isConstant] using hzero.mpr hn)
  · have hnonzero : Number.isZero (Number.round (n : ℚ)) = false := by
      simpa using fun h => hn (hzero.mp h)
    rw [if_neg hn]
    exact List.filter_cons_of_pos (by
      simpa [LengthTerm.constant, LengthTerm.isConstant] using hnonzero)

/-- **An integer is taken away** from the integer at the end of the folded terms. -/
theorem takeAway_eq (minus n : ℤ) (hterms : ∀ t ∈ terms, t.isConstant = false) :
    takeAway minus (terms ++ integerTerms n) = terms ++ integerTerms (n - minus) := by
  rw [← filter_append_integer (n - minus) hterms, takeAway]
  congr 1
  by_cases hn : n = 0
  · have hnil : integerTerms n = [] := if_pos hn
    rw [hnil, List.append_nil, hn, zero_sub]
    cases hlast : terms.getLast? with
    | none =>
      rw [List.getLast?_eq_none_iff.mp hlast]
      rfl
    | some last =>
      simp only [hterms last (List.mem_of_getLast? hlast)]
      rfl
  · have hsome : integerTerms n = [LengthTerm.constant (n : ℚ)] := if_neg hn
    have hdifference : Number.round (n : ℚ) - Number.ofInt minus = ((n - minus : ℤ) : ℚ) := by
      rw [Number.round_rat, roundAway_intCast, Number.ofInt_rat, Int.cast_sub]
    rw [hsome, List.getLast?_concat, List.dropLast_concat, ← hdifference]
    rfl

/-! ### The text -/

theorem termsWorth_eq_total (h : ∀ t ∈ terms, t.isConstant = true) :
    termsWorth assignment terms = total terms := by
  rw [total_eq, termsWorth]
  congr 1
  refine List.map_congr_left fun t ht => ?_
  have := h t ht
  rw [LengthTerm.isConstant, Option.isNone_iff_eq_none] at this
  rw [LengthTerm.worth, this]

theorem constantTotal_of_isConstant (h : s.isConstant = true) :
    s.constantTotal = total s.terms := by
  rw [constantTotal, List.filter_eq_self.mpr (List.all_eq_true.mp h)]

/-- Without symbols nothing is left beside the constants. -/
theorem termsWorth_symbolTerms_of_isConstant (hsound : ∀ t ∈ s.terms, t.IsSound assignment)
    (h : s.isConstant = true) : termsWorth assignment s.symbolTerms = 0 := by
  obtain ⟨-, hworth⟩ := termsWorth_symbolTerms hsound
  rw [termsWorth_eq_total (List.all_eq_true.mp h), constantTotal_of_isConstant h] at hworth
  linarith

theorem mem_integerTerms {t : LengthTerm ℚ} {n : ℤ} (h : t ∈ integerTerms n) :
    t = .constant (n : ℚ) := by
  unfold integerTerms at h
  split at h
  · exact absurd h (by simp)
  · exact List.mem_singleton.mp h

/-- Each of the folded terms has a text of its worth, whatever integer is at their end. -/
theorem isWorth_render_of_mem {t : LengthTerm ℚ} {n : ℤ}
    (hsound : ∀ t ∈ s.terms, t.IsSound assignment) (ht : t ∈ s.foldedSymbols ++ integerTerms n) :
    IsWorth assignment .sum t.render (t.worth assignment) := by
  obtain ⟨hsymbols, -⟩ := foldedSymbols_sound hsound
  rcases List.mem_append.mp ht with ht | ht
  · obtain ⟨ht, hconstant⟩ := hsymbols t ht
    cases hsymbol : t.symbol? with
    | none => exact absurd hconstant (by simp [LengthTerm.isConstant, hsymbol])
    | some symbol => exact LengthTerm.isWorth_render (ht symbol hsymbol).1 hsymbol
  · rw [mem_integerTerms ht]
    exact LengthTerm.isWorth_render_constant n

/-- **The text of a folded sum** less an integer is a formula. -/
theorem isWorth_foldedTextLess (hsound : ∀ t ∈ s.terms, t.IsSound assignment) (minus : ℤ) :
    IsWorth assignment .sum (s.foldedTextLess true minus)
      (termsWorth assignment s.symbolTerms + roundAway s.constantTotal - minus) := by
  obtain ⟨hsymbols, hfolded⟩ := foldedSymbols_sound hsound
  rw [foldedTextLess, value?]
  by_cases hconstant : s.isConstant = true
  · -- Without symbols the text is that of one integer.
    rw [if_pos hconstant, termsWorth_symbolTerms_of_isConstant hsound hconstant, zero_add,
      constantTotal_of_isConstant hconstant, ← Int.cast_sub]
    simp only [Bool.not_true, Bool.false_eq_true, and_false, if_false, Number.round_rat,
      Number.toInt_intCast]
    exact (IsWorth.intText _).toSum
  · -- Otherwise it is that of the symbols, and of an integer behind them unless it is zero.
    rw [if_neg hconstant]
    have hterms : (if minus = 0 then s.folded else takeAway minus s.folded) =
        s.foldedSymbols ++ integerTerms (roundAway s.constantTotal - minus) := by
      rw [folded_eq, takeAway_eq minus _ fun t ht => (hsymbols t ht).2]
      split
      · rename_i hzero
        rw [hzero, sub_zero]
      · rfl
    simp only [hterms, Bool.and_true]
    generalize hn : roundAway s.constantTotal - minus = n
    have hworth' : termsWorth assignment s.symbolTerms + roundAway s.constantTotal - minus =
        termsWorth assignment (s.foldedSymbols ++ integerTerms n) := by
      rw [termsWorth_append, termsWorth_integerTerms, hfolded, ← hn, Int.cast_sub, add_sub_assoc]
    rw [hworth']
    by_cases hne : s.foldedSymbols ++ integerTerms n = []
    · -- All symbols have cancelled, and so has the integer.
      rw [hne]
      exact (IsWorth.intText 0).toSum
    · have htext := isWorth_renderTerms hne fun t ht => isWorth_render_of_mem hsound ht
      rwa [if_neg (by simpa using htext.ne_nil)]

/-- **Folding a length keeps what it is worth.** -/
theorem isWorth_foldedText (h : IsWorth assignment .sum source q) :
    ∃ r, IsWorth assignment .sum ((parse source : LengthSum ℚ).foldedText true) r ∧
      |r - q| ≤ 1 / 2 ∧
      ((∃ n : ℤ, (parse source : LengthSum ℚ).constantTotal = n) → r = q) ∧
      IsWorth assignment .sum (parse source : LengthSum ℚ).lastIndexText (r - 1) := by
  obtain ⟨hsound, rfl⟩ := termsOf_sound h
  have hterms : (parse source : LengthSum ℚ).terms = termsOf source := rfl
  rw [← hterms] at hsound ⊢
  generalize (parse source : LengthSum ℚ) = s at hsound ⊢
  obtain ⟨-, hworth⟩ := termsWorth_symbolTerms hsound
  refine ⟨termsWorth assignment s.symbolTerms + roundAway s.constantTotal, ?_, ?_, ?_, ?_⟩
  · simpa [foldedText] using isWorth_foldedTextLess hsound 0
  · rw [← hworth, add_sub_add_left_eq_sub]
    exact abs_roundAway_sub_le s.constantTotal
  · rintro ⟨n, hn⟩
    rw [← hworth, hn, roundAway_intCast]
  · simpa [lastIndexText] using isWorth_foldedTextLess hsound 1

/-- A length with a quotient, a difference and a sum in parentheses. -/
theorem isWorth_foldedText_seven_halves :
    IsWorth (fun _ => 5) .sum "7/2+2*N-1+(N+1)+(N+1)".toList (49 / 2) ∧
      ∃ r, IsWorth (fun _ => 5) .sum
          ((parse "7/2+2*N-1+(N+1)+(N+1)".toList : LengthSum ℚ).foldedText true) r ∧
        |r - 49 / 2| ≤ 1 / 2 ∧
        ((∃ n : ℤ, (parse "7/2+2*N-1+(N+1)+(N+1)".toList : LengthSum ℚ).constantTotal = n) →
          r = 49 / 2) ∧
        IsWorth (fun _ => 5) .sum
          (parse "7/2+2*N-1+(N+1)+(N+1)".toList : LengthSum ℚ).lastIndexText (r - 1) := by
  have h : IsWorth (fun _ => 5) .sum "7/2+2*N-1+(N+1)+(N+1)".toList (49 / 2) := by
    have hdigit : ∀ n : ℕ, IsWorth (fun _ => 5) .unary (Decimal.natText n) n := IsWorth.natText
    have hname : IsWorth (fun _ => 5) .unary ['N'] (5 : ℤ) :=
      IsWorth.name ⟨'N', [], rfl, rfl, by simp⟩
    have hquotient : IsWorth (fun _ => 5) .product "7/2".toList ((7 : ℕ) / (2 : ℕ)) :=
      (hdigit 7).ofUnary.product (rfl : productOperator? Token.slash = some .divide)
        (IsWorth.isWritten_sign (c := '/') rfl) (hdigit 2) (by simp [BinaryOperator.Accepts])
    have hdifference : IsWorth (fun _ => 5) .sum "2*N-1".toList ((2 : ℕ) * (5 : ℤ) - (1 : ℕ)) :=
      ((hdigit 2).ofUnary.mul (IsWorth.isWritten_sign (c := '*') rfl) hname).toSum.sum
        (rfl : sumOperator? Token.minus = some .subtract)
        (IsWorth.isWritten_sign (c := '-') rfl) (hdigit 1).ofUnary
    have hgroup : IsWorth (fun _ => 5) .sum "(N+1)".toList ((5 : ℤ) + (1 : ℕ)) :=
      (hname.toSum.add (hdigit 1).toSum).group.toSum
    have hsum := ((hquotient.toSum.add hdifference).add hgroup).add hgroup
    norm_num at hsum
    exact hsum
  exact ⟨h, isWorth_foldedText h⟩

example : (parse "7/2+2*N-1+(N+1)+(N+1)".toList : LengthSum ℚ).foldedText true =
    "2*N-1+2*(N+1)+4".toList := by decide +kernel

end LengthSum

end WireCodec
