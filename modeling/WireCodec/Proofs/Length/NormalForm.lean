import Mathlib.Data.List.Induction
import Mathlib.Data.List.Nodup
import WireCodec.Length.Sum
import WireCodec.Proofs.Ieee.Integral

/-!
# The normal form of a length

Folding brings the terms of a length into a **normal form**: symbols that are different from each
other and stand in the order in which they first occur, each with its coefficients added up, and
behind them the rounded sum of the constants, where nothing is there that is zero
(`WireCodec.LengthSum.IsNormalForm`). This needs no law of arithmetic, as sums are never taken in
another order than that of the terms (`WireCodec.LengthSum.isNormalForm_folded`).

Terms are merged one at a time, each into what has been gathered from those before it
(`WireCodec.LengthSum.mergeTerm_gathered`), so that after all of them the symbols are gathered from
the whole sum (`WireCodec.LengthSum.symbolTerms_eq_gathered`).

To fold the folded terms once more adds the constant to zero and rounds it again. For this to change
nothing there are three laws (`WireCodec.Number.RoundsOnce`). They hold of the rational numbers, and
also of the floating point numbers, infinities and NaNs included
(`WireCodec.LengthSum.folded_folded`).
-/

namespace WireCodec

theorem LengthTerm.eq_constant_or_symbolic {α : Type} (t : LengthTerm α) :
    (∃ a, t = .constant a) ∨ ∃ a symbol, t = .symbolic a symbol := by
  obtain ⟨a, _ | symbol⟩ := t
  · exact .inl ⟨a, rfl⟩
  · exact .inr ⟨a, symbol, rfl⟩

namespace LengthSum

/-! ### What terms say of a symbol -/

section Occurrences

variable {α : Type} {terms : List (LengthTerm α)} {symbols : List (List Char)} {symbol : List Char}
  {f g : List Char → α} {a : α}

/-- The symbols of terms, as often as they occur. -/
def occurrences (terms : List (LengthTerm α)) : List (List Char) :=
  terms.filterMap LengthTerm.symbol?

/-- The coefficients of a symbol, in the order of the terms. -/
def coefficientsOf (terms : List (LengthTerm α)) (symbol : List Char) : List α :=
  (terms.filter fun t => t.symbol? = some symbol).map LengthTerm.coefficient

/-- The given symbols, each with a coefficient. -/
def withCoefficients (coefficient : List Char → α) (symbols : List (List Char)) :
    List (LengthTerm α) :=
  symbols.map fun symbol => .symbolic (coefficient symbol) symbol

theorem withCoefficients_congr (h : ∀ symbol ∈ symbols, f symbol = g symbol) :
    withCoefficients f symbols = withCoefficients g symbols :=
  List.map_congr_left fun symbol hsymbol => by rw [h symbol hsymbol]

theorem withCoefficients_concat (f : List Char → α) (symbols : List (List Char))
    (symbol : List Char) : withCoefficients f (symbols ++ [symbol]) =
      withCoefficients f symbols ++ [.symbolic (f symbol) symbol] :=
  List.map_append

theorem symbolic_mem_withCoefficients_iff :
    .symbolic a symbol ∈ withCoefficients f symbols ↔ symbol ∈ symbols ∧ a = f symbol := by
  simp [withCoefficients, LengthTerm.symbolic, eq_comm, and_comm]

theorem isConstant_of_mem_withCoefficients {t : LengthTerm α}
    (h : t ∈ withCoefficients f symbols) : t.isConstant = false := by
  obtain ⟨symbol, -, rfl⟩ := List.mem_map.mp h
  rfl

theorem occurrences_append (terms terms' : List (LengthTerm α)) :
    occurrences (terms ++ terms') = occurrences terms ++ occurrences terms' :=
  List.filterMap_append

theorem occurrences_withCoefficients : occurrences (withCoefficients f symbols) = symbols := by
  simp [occurrences, withCoefficients, LengthTerm.symbolic]

theorem occurrences_concat_constant :
    occurrences (terms ++ [.constant a]) = occurrences terms := by
  simp [occurrences, LengthTerm.constant]

theorem occurrences_concat_symbolic :
    occurrences (terms ++ [.symbolic a symbol]) = occurrences terms ++ [symbol] := by
  simp [occurrences, LengthTerm.symbolic]

theorem coefficientsOf_concat_constant :
    coefficientsOf (terms ++ [.constant a]) symbol = coefficientsOf terms symbol := by
  simp [coefficientsOf, LengthTerm.constant]

theorem coefficientsOf_concat_self :
    coefficientsOf (terms ++ [.symbolic a symbol]) symbol = coefficientsOf terms symbol ++ [a] := by
  simp [coefficientsOf, LengthTerm.symbolic]

theorem coefficientsOf_concat_of_ne {other : List Char} (h : other ≠ symbol) :
    coefficientsOf (terms ++ [.symbolic a symbol]) other = coefficientsOf terms other := by
  simp [coefficientsOf, LengthTerm.symbolic, Ne.symm h]

theorem coefficientsOf_eq_nil_iff :
    coefficientsOf terms symbol = [] ↔ symbol ∉ occurrences terms := by
  simp [coefficientsOf, occurrences]

end Occurrences

/-! ### The order of first occurrence -/

section Order

variable {names : List (List Char)} {name : List Char}

theorem eraseDups_concat_of_mem (h : name ∈ names) :
    (names ++ [name]).eraseDups = names.eraseDups := by
  rw [List.eraseDups_append]
  simp [List.removeAll, h]

theorem eraseDups_concat_of_not_mem (h : name ∉ names) :
    (names ++ [name]).eraseDups = names.eraseDups ++ [name] := by
  rw [List.eraseDups_append]
  simp [List.removeAll, h, List.eraseDups_cons]

/-- **Without repetitions** names stand in the order of their first occurrence. -/
theorem pairwise_eraseDups (names : List (List Char)) :
    names.eraseDups.Pairwise fun x y => names.idxOf x < names.idxOf y := by
  induction names using List.reverseRecOn with
  | nil => exact List.Pairwise.nil
  | append_singleton names name ih =>
    have hbefore : names.eraseDups.Pairwise fun x y =>
        (names ++ [name]).idxOf x < (names ++ [name]).idxOf y := by
      refine ih.imp_of_mem fun hx hy hlt => ?_
      rwa [List.idxOf_append_of_mem (List.mem_eraseDups.mp hx),
        List.idxOf_append_of_mem (List.mem_eraseDups.mp hy)]
    by_cases hmem : name ∈ names
    · rwa [eraseDups_concat_of_mem hmem]
    · rw [eraseDups_concat_of_not_mem hmem, List.pairwise_append]
      refine ⟨hbefore, List.pairwise_singleton _ _, fun x hx y hy => ?_⟩
      obtain rfl := List.mem_singleton.mp hy
      have hx := List.mem_eraseDups.mp hx
      rw [List.idxOf_append_of_mem hx, List.idxOf_append_of_notMem hmem]
      exact Nat.lt_add_right _ (List.idxOf_lt_length_of_mem hx)

theorem nodup_eraseDups (names : List (List Char)) : names.eraseDups.Nodup := by
  refine (pairwise_eraseDups names).imp fun hlt heq => ?_
  rw [heq] at hlt
  exact Nat.lt_irrefl _ hlt

end Order

variable {α : Type} [Number α] {terms : List (LengthTerm α)} {symbols : List (List Char)}
  {symbol : List Char} {f g : List Char → α} {a c : α}

/-! ### One more term -/

/-- Numbers added up one after the other, from the first one on. -/
def sumInOrder : List α → α
  | [] => Number.ofInt 0
  | c :: cs => cs.foldl (· + ·) c

/-- **The coefficient of a symbol in a sum**: its coefficients added up in the order of the
terms. -/
def coefficientSum (terms : List (LengthTerm α)) (symbol : List Char) : α :=
  sumInOrder (coefficientsOf terms symbol)

/-- **The symbols of terms**, in the order of their first occurrence, and each with its coefficients
added up. -/
def gathered (terms : List (LengthTerm α)) : List (LengthTerm α) :=
  withCoefficients (coefficientSum terms) (occurrences terms).eraseDups

theorem sumInOrder_concat {cs : List α} (h : cs ≠ []) :
    sumInOrder (cs ++ [c]) = sumInOrder cs + c := by
  cases cs with
  | nil => exact absurd rfl h
  | cons c' cs => simp [sumInOrder]

theorem mergeSymbol_cons_self :
    mergeSymbol c symbol (.symbolic a symbol :: terms) = .symbolic (a + c) symbol :: terms :=
  if_pos rfl

theorem mergeSymbol_cons_of_ne {other : List Char} (h : other ≠ symbol) :
    mergeSymbol c symbol (.symbolic a other :: terms) =
      .symbolic a other :: mergeSymbol c symbol terms :=
  if_neg fun heq => h (Option.some.inj heq)

/-- A symbol that is new is put behind the others. -/
theorem mergeSymbol_of_not_mem (h : symbol ∉ symbols) :
    mergeSymbol c symbol (withCoefficients f symbols) =
      withCoefficients f symbols ++ [.symbolic c symbol] := by
  induction symbols with
  | nil => rfl
  | cons other symbols ih =>
    rw [List.mem_cons, not_or] at h
    rw [withCoefficients, List.map_cons, mergeSymbol_cons_of_ne (Ne.symm h.1)]
    exact congrArg _ (ih h.2)

/-- One that is not stays in its place, and the coefficient is added to what it has. -/
theorem mergeSymbol_of_mem (hnodup : symbols.Nodup) (h : symbol ∈ symbols)
    (hsymbol : g symbol = f symbol + c) (hothers : ∀ other, other ≠ symbol → g other = f other) :
    mergeSymbol c symbol (withCoefficients f symbols) = withCoefficients g symbols := by
  induction symbols with
  | nil => cases h
  | cons other symbols ih =>
    obtain ⟨hnot, hnodup⟩ := List.nodup_cons.mp hnodup
    rw [withCoefficients, withCoefficients, List.map_cons, List.map_cons]
    by_cases heq : other = symbol
    · subst heq
      rw [mergeSymbol_cons_self, hsymbol]
      exact congrArg _ (withCoefficients_congr fun x hx =>
        (hothers x (ne_of_mem_of_not_mem hx hnot)).symm)
    · have hmem : symbol ∈ symbols := (List.mem_cons.mp h).resolve_left (Ne.symm heq)
      rw [mergeSymbol_cons_of_ne heq, hothers other heq]
      exact congrArg _ (ih hnodup hmem)

/-- **One more term** is merged into what has been gathered before it. -/
theorem mergeTerm_gathered (terms : List (LengthTerm α)) (t : LengthTerm α) :
    mergeTerm (gathered terms) t = gathered (terms ++ [t]) := by
  unfold gathered
  obtain ⟨a, rfl⟩ | ⟨a, symbol, rfl⟩ := t.eq_constant_or_symbolic
  · rw [occurrences_concat_constant]
    refine withCoefficients_congr fun symbol _ => ?_
    rw [coefficientSum, coefficientSum, coefficientsOf_concat_constant]
  · have hothers : ∀ other, other ≠ symbol →
        coefficientSum (terms ++ [.symbolic a symbol]) other = coefficientSum terms other := by
      intro other hne
      rw [coefficientSum, coefficientSum, coefficientsOf_concat_of_ne hne]
    have hself : coefficientSum (terms ++ [.symbolic a symbol]) symbol =
        sumInOrder (coefficientsOf terms symbol ++ [a]) := by
      rw [coefficientSum, coefficientsOf_concat_self]
    rw [occurrences_concat_symbolic]
    by_cases hmem : symbol ∈ occurrences terms
    · have hne : coefficientsOf terms symbol ≠ [] := fun hnil =>
        coefficientsOf_eq_nil_iff.mp hnil hmem
      rw [sumInOrder_concat hne] at hself
      rw [eraseDups_concat_of_mem hmem]
      exact mergeSymbol_of_mem (nodup_eraseDups _) (List.mem_eraseDups.mpr hmem) hself hothers
    · have hnot : symbol ∉ (occurrences terms).eraseDups := by rwa [List.mem_eraseDups]
      rw [coefficientsOf_eq_nil_iff.mpr hmem] at hself
      have hbefore := withCoefficients_congr fun other hother =>
        hothers other (ne_of_mem_of_not_mem hother hnot)
      rw [eraseDups_concat_of_not_mem hmem, withCoefficients_concat, hbefore, hself]
      exact mergeSymbol_of_not_mem hnot

/-- **Folding gathers the symbols.** -/
theorem symbolTerms_eq_gathered (s : LengthSum α) : s.symbolTerms = gathered s.terms := by
  obtain ⟨terms⟩ := s
  -- The induction is on the terms from the end, as this is where the sums go on.
  induction terms using List.reverseRecOn with
  | nil => rfl
  | append_singleton terms t ih =>
    have ih : terms.foldl mergeTerm [] = gathered terms := ih
    rw [symbolTerms, List.foldl_append, ih]
    exact mergeTerm_gathered terms t

/-! ### The normal form -/

/-- The constants of terms, added up in their order from zero on. -/
def constantSum (terms : List (LengthTerm α)) : α :=
  total (terms.filter LengthTerm.isConstant)

/-- **The terms `folded` are the normal form of a sum of terms.** -/
structure IsNormalForm (terms folded : List (LengthTerm α)) : Prop where
  /-- The symbols are different from each other. -/
  nodup : (occurrences folded).Nodup
  /-- They stand in the order in which they first occur. -/
  inOrder : (occurrences folded).Pairwise fun x y =>
    (occurrences terms).idxOf x < (occurrences terms).idxOf y
  /-- There are the symbols whose coefficients add up to another number than zero, and each has this
  number before it. -/
  symbolic_mem_iff (c : α) (symbol : List Char) : .symbolic c symbol ∈ folded ↔
    symbol ∈ occurrences terms ∧ c = coefficientSum terms symbol ∧ Number.isZero c = false
  /-- There is the rounded sum of the constants, if it is another number than zero, and no other
  constant. -/
  constant_mem_iff (c : α) : .constant c ∈ folded ↔
    c = Number.round (constantSum terms) ∧ Number.isZero c = false
  /-- Only the last term is a constant. -/
  last : ∀ t ∈ folded.dropLast, t.isConstant = false

/-- The symbols whose coefficients do not add up to zero. -/
def keptSymbols (terms : List (LengthTerm α)) : List (List Char) :=
  (occurrences terms).eraseDups.filter fun symbol => !Number.isZero (coefficientSum terms symbol)

/-- These symbols with their coefficients added up. -/
def keptTerms (terms : List (LengthTerm α)) : List (LengthTerm α) :=
  withCoefficients (coefficientSum terms) (keptSymbols terms)

/-- The terms that a constant is: none if it is zero. -/
def constantTerms (c : α) : List (LengthTerm α) :=
  if Number.isZero c then [] else [.constant c]

theorem folded_eq_append (s : LengthSum α) :
    s.folded = keptTerms s.terms ++ constantTerms (Number.round (constantSum s.terms)) := by
  rw [folded, symbolTerms_eq_gathered, gathered, withCoefficients, List.filter_map]
  rfl

theorem nodup_keptSymbols (terms : List (LengthTerm α)) : (keptSymbols terms).Nodup :=
  (nodup_eraseDups _).sublist List.filter_sublist

theorem mem_constantTerms {t : LengthTerm α} :
    t ∈ constantTerms c ↔ t = .constant c ∧ Number.isZero c = false := by
  unfold constantTerms
  split <;> simp_all

theorem occurrences_folded (s : LengthSum α) : occurrences s.folded = keptSymbols s.terms := by
  have hconstant : ∀ c : α, occurrences (constantTerms c) = [] := by
    intro c
    unfold constantTerms
    split <;> rfl
  rw [folded_eq_append, occurrences_append, keptTerms, occurrences_withCoefficients, hconstant,
    List.append_nil]

/-- **Folded terms are a normal form.** -/
theorem isNormalForm_folded (s : LengthSum α) : IsNormalForm s.terms s.folded := by
  refine ⟨?nodup, ?inOrder, fun c symbol => ?symbolic, fun c => ?constant, ?last⟩
  case nodup =>
    rw [occurrences_folded]
    exact nodup_keptSymbols s.terms
  case inOrder =>
    rw [occurrences_folded]
    exact (pairwise_eraseDups _).sublist List.filter_sublist
  case symbolic =>
    have hne : ∀ c', LengthTerm.symbolic c symbol ≠ .constant c' := fun c' heq => by
      cases congrArg LengthTerm.symbol? heq
    have hkept : symbol ∈ keptSymbols s.terms ↔
        symbol ∈ occurrences s.terms ∧ Number.isZero (coefficientSum s.terms symbol) = false := by
      rw [keptSymbols, List.mem_filter, List.mem_eraseDups, Bool.not_eq_true']
    rw [folded_eq_append, List.mem_append, mem_constantTerms, keptTerms,
      symbolic_mem_withCoefficients_iff, hkept]
    constructor
    · rintro (⟨⟨hmem, hzero⟩, rfl⟩ | ⟨heq, -⟩)
      · exact ⟨hmem, rfl, hzero⟩
      · exact absurd heq (hne _)
    · rintro ⟨hmem, rfl, hzero⟩
      exact .inl ⟨⟨hmem, hzero⟩, rfl⟩
  case constant =>
    rw [folded_eq_append, List.mem_append, mem_constantTerms]
    constructor
    · rintro (hmem | ⟨heq, hzero⟩)
      · cases isConstant_of_mem_withCoefficients hmem
      · cases heq
        exact ⟨rfl, hzero⟩
    · rintro ⟨rfl, hzero⟩
      exact .inr ⟨rfl, hzero⟩
  case last =>
    rw [folded_eq_append, constantTerms]
    split
    · rw [List.append_nil]
      exact fun t ht => isConstant_of_mem_withCoefficients (List.mem_of_mem_dropLast ht)
    · rw [List.dropLast_concat]
      exact fun t => isConstant_of_mem_withCoefficients

/-! ### Folding twice -/

theorem foldl_mergeTerm_withCoefficients (hnodup : symbols.Nodup) :
    (withCoefficients f symbols).foldl mergeTerm [] = withCoefficients f symbols := by
  induction symbols using List.reverseRecOn with
  | nil => rfl
  | append_singleton symbols symbol ih =>
    rw [List.nodup_append] at hnodup
    have hnot : symbol ∉ symbols := fun hmem =>
      hnodup.2.2 symbol hmem symbol (List.mem_singleton_self _) rfl
    rw [withCoefficients_concat, List.foldl_append, ih hnodup.1]
    exact mergeSymbol_of_not_mem hnot

/-- Constants are not symbols. -/
theorem foldl_mergeTerm_constantTerms (merged : List (LengthTerm α)) (c : α) :
    (constantTerms c).foldl mergeTerm merged = merged := by
  unfold constantTerms
  split <;> rfl

theorem symbolTerms_folded (s : LengthSum α) :
    (⟨s.folded⟩ : LengthSum α).symbolTerms = keptTerms s.terms := by
  rw [symbolTerms, folded_eq_append, List.foldl_append, keptTerms,
    foldl_mergeTerm_withCoefficients (nodup_keptSymbols s.terms), foldl_mergeTerm_constantTerms]

theorem constantPart_folded (s : LengthSum α) : (⟨s.folded⟩ : LengthSum α).constantPart =
    Number.round (total (constantTerms (Number.round (constantSum s.terms)))) := by
  have hsymbols : (keptTerms s.terms).filter LengthTerm.isConstant = [] :=
    List.filter_eq_nil_iff.mpr fun t ht => by
      rw [isConstant_of_mem_withCoefficients ht]
      exact Bool.false_ne_true
  have hconstants : ∀ c : α, (constantTerms c).filter LengthTerm.isConstant = constantTerms c :=
    fun c => List.filter_eq_self.mpr fun t ht => by
      obtain ⟨rfl, -⟩ := mem_constantTerms.mp ht
      rfl
  rw [constantPart, folded_eq_append, List.filter_append, hsymbols, hconstants, List.nil_append]

end LengthSum

/-- **Rounding once is enough.** -/
class Number.RoundsOnce (α : Type) [Number α] : Prop where
  /-- A number that is not zero is kept by adding it to zero. -/
  zero_add {a : α} (h : isZero a = false) : ofInt 0 + a = a
  /-- A rounded number is kept by rounding. -/
  round_round (a : α) : round (round a) = round a
  /-- Zero is rounded to zero. -/
  isZero_round_zero : isZero (round (ofInt 0 : α)) = true

instance : Number.RoundsOnce ℚ where
  zero_add _ := by rw [Number.ofInt_rat, Int.cast_zero]; exact AddZeroClass.zero_add _
  round_round q := by rw [Number.round_rat, Number.round_rat, roundAway_intCast]
  isZero_round_zero := by
    rw [Number.isZero_rat_iff, Number.ofInt_rat, Number.round_rat, roundAway_intCast, Int.cast_zero]

instance : Number.RoundsOnce Float where
  zero_add h := zero_add_of_ne h
  round_round := roundFloat_roundFloat
  isZero_round_zero := by
    have hzero : (Number.round (Number.ofInt 0 : Float) : Float) = Float.ofInt 0 :=
      roundFloat_ofInt_zero
    rw [hzero]
    rfl

namespace LengthSum

variable {α : Type} [Number α]

/-- A rounded constant is the same constant when it is added up and rounded again. -/
theorem constantTerms_round_total [Number.RoundsOnce α] (c : α) :
    constantTerms (Number.round (total (constantTerms (Number.round c)))) =
      constantTerms (Number.round c) := by
  cases hzero : Number.isZero (Number.round c) with
  | true =>
    have hnil : constantTerms (Number.round c) = [] := if_pos hzero
    rw [hnil]
    exact if_pos Number.RoundsOnce.isZero_round_zero
  | false =>
    have hone : constantTerms (Number.round c) = [.constant (Number.round c)] :=
      if_neg (Bool.eq_false_iff.mp hzero)
    have htotal : total [LengthTerm.constant (Number.round c)] = Number.round c :=
      Number.RoundsOnce.zero_add hzero
    rw [hone, htotal, Number.RoundsOnce.round_round, hone]

/-- **Folding twice** is folding once. -/
theorem folded_folded [Number.RoundsOnce α] (s : LengthSum α) :
    (⟨s.folded⟩ : LengthSum α).folded = s.folded := by
  have hkept : (keptTerms s.terms).filter (fun t => !Number.isZero t.coefficient) =
      keptTerms s.terms := by
    refine List.filter_eq_self.mpr fun t ht => ?_
    obtain ⟨symbol, hsymbol, rfl⟩ := List.mem_map.mp ht
    exact (List.mem_filter.mp hsymbol).2
  calc (⟨s.folded⟩ : LengthSum α).folded
      = (⟨s.folded⟩ : LengthSum α).symbolTerms.filter (fun t => !Number.isZero t.coefficient) ++
          constantTerms (⟨s.folded⟩ : LengthSum α).constantPart := rfl
    _ = keptTerms s.terms ++ constantTerms (Number.round (constantSum s.terms)) := by
        rw [symbolTerms_folded, hkept, constantPart_folded, constantTerms_round_total]
    _ = s.folded := (folded_eq_append s).symm

/-- One symbol cancels, and the constants are rounded together. -/
example : (⟨[.symbolic 2 ['N'], .constant (3 / 2), .symbolic 1 ['M'], .symbolic (-2) ['N'],
    .constant 1]⟩ : LengthSum ℚ).folded = [.symbolic 1 ['M'], .constant 3] := by decide +kernel

/-! ### The text of nothing -/

/-- **A length that is zero** is written as such or not at all, and any other has one text. -/
theorem foldedText_true (s : LengthSum α) : s.foldedText true =
    if s.foldedText false = [] then ['0'] else s.foldedText false := by
  have hdigits : ∀ n : ℤ, Decimal.intText n ≠ [] := by
    intro n
    unfold Decimal.intText
    split
    · exact List.cons_ne_nil _ _
    · exact Nat.toDigits_ne_nil
  unfold foldedText foldedTextLess
  cases s.value? with
  | some value =>
    by_cases hzero : value = 0
    · rw [hzero]
      rfl
    · simp [hzero, hdigits]
  | none => simp [List.isEmpty_iff]

/-! ### Floating point numbers -/

/-- **Folding in floating point numbers** gives a normal form, in which the constant is the sum of
the constants rounded to the nearest integer. It is done once and for all, and a length that folds
to nothing is written `0` where it has to be written. -/
theorem folded_float (s : LengthSum Float) :
    IsNormalForm s.terms s.folded ∧
      (FloatValue.ofFloat (Number.round (constantSum s.terms))).toRat? =
        (FloatValue.ofFloat (constantSum s.terms)).toRat?.map (fun q => (roundAway q : ℚ)) ∧
      (⟨s.folded⟩ : LengthSum Float).folded = s.folded ∧
      s.foldedText true = if s.foldedText false = [] then ['0'] else s.foldedText false :=
  ⟨isNormalForm_folded s, toRat?_roundFloat (constantSum s.terms), folded_folded s,
    foldedText_true s⟩

end LengthSum

end WireCodec
