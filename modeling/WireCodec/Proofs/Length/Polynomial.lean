import WireCodec.Proofs.Length.Product

/-!
# Lengths that are polynomials

The lengths of fields are put together by `+`, `-` and `*`, so they are polynomials in their
symbols, with integers as coefficients (`WireCodec.IsPolynomial`). Such a length is defined and
worth an integer whatever its symbols stand for (`WireCodec.IsPolynomial.exists_isWorth`), and so is
every piece of it. In a sum of polynomials all constants are integers and no symbol has a `%` in it,
which is what it takes to multiply the sum by a count and to fold it without a loss.

`WireCodec.LengthSum.AmountsTo` says this of a sum, together with its worth. It holds of the sum
without terms and of what is read from a polynomial, and it is kept when sums are added and when
they are multiplied by counts (`WireCodec.LengthSum.AmountsTo.times`).
-/

namespace WireCodec

open Token Expression

variable {assignment : Symbol → ℤ} {text source part w count : List Char} {a q r : ℚ} {c : Char}
  {level : Level} {e : Expression Operand}

/-! ### Polynomials -/

/-- **Nothing is divided in the text**, and no power is taken. -/
def IsPlain (text : List Char) : Prop :=
  '/' ∉ text ∧ '%' ∉ text ∧ '^' ∉ text

instance : Decidable (IsPlain text) :=
  inferInstanceAs (Decidable (_ ∧ _))

/-- **The text is a polynomial** in its symbols: a formula of integers, symbols, `+`, `-`, `*` and
parentheses. -/
def IsPolynomial (text : List Char) : Prop :=
  (∃ e, IsFormula text e) ∧ IsPlain text

theorem IsPlain.subset (h : IsPlain text) (hsubset : part ⊆ text) : IsPlain part :=
  ⟨fun hc => h.1 (hsubset hc), fun hc => h.2.1 (hsubset hc), fun hc => h.2.2 (hsubset hc)⟩

theorem isPlain_append {first rest : List Char} :
    IsPlain (first ++ rest) ↔ IsPlain first ∧ IsPlain rest := by
  simp only [IsPlain, List.mem_append, not_or]
  constructor
  · rintro ⟨⟨h, h'⟩, ⟨hr, hr'⟩, hp, hp'⟩
    exact ⟨⟨h, hr, hp⟩, h', hr', hp'⟩
  · rintro ⟨⟨h, hr, hp⟩, h', hr', hp'⟩
    exact ⟨⟨h, h'⟩, ⟨hr, hr'⟩, hp, hp'⟩

/-- An operator stands in the text that it is written as. -/
theorem mem_of_signOf? {t : Token Operand} (hw : IsWritten Operand.IsSpelled t w)
    (hc : signOf? t = some c) : c ∈ w := by
  obtain ⟨before, after, rfl, -, -⟩ := exists_of_signOf? hw hc
  simp

theorem Operand.IsSpelled.exists_worth {a : Operand} (h : IsSpelled a w) :
    ∃ n : ℤ, a.worth assignment = n := by
  cases h with
  | decimal => exact ⟨digitsValue 10 w, by rw [Operand.worth_decimal, Int.cast_natCast]⟩
  | @hexadecimal mark digits =>
    refine ⟨hexLiteralValue ('0' :: mark :: digits), ?_⟩
    rw [Int.cast_natCast]
    rfl
  | name => exact ⟨assignment _, rfl⟩
  | call => exact ⟨assignment _, rfl⟩

/-- A plain formula is defined and worth an integer. -/
theorem Expression.Derives.exists_worth (h : Derives (IsWritten Operand.IsSpelled) level text e)
    (hplain : IsPlain text) (assignment : Symbol → ℤ) :
    e.IsDefined (Operand.worth assignment) ∧
      ∃ n : ℤ, e.worth (Operand.worth assignment) = n := by
  -- The induction is on the derivation. An operator that may be undefined would be in the text.
  induction h with
  | literal hw =>
    refine ⟨trivial, ?_⟩
    cases hw with
    | literal _ hw _ => exact hw.exists_worth
    | sign _ hc _ => exact absurd (ofChar?_eq_some_iff.mp hc) (by simp [signOf?])
  | group hw h hw' ih =>
    rw [isPlain_append, isPlain_append] at hplain
    exact ih hplain.2.1
  | power hl hw hr =>
    rw [isPlain_append, isPlain_append] at hplain
    exact absurd (mem_of_signOf? hw rfl) hplain.2.1.2.2
  | negate hw h ih =>
    rw [isPlain_append] at hplain
    obtain ⟨hdefined, n, hn⟩ := ih hplain.2
    exact ⟨hdefined, -n, by rw [Expression.worth, hn, Int.cast_neg]⟩
  | product hl ht hw hr ihl ihr =>
    rw [isPlain_append, isPlain_append] at hplain
    obtain ⟨hdl, n, hn⟩ := ihl hplain.1
    obtain ⟨hdr, m, hm⟩ := ihr hplain.2.2
    obtain ⟨c, hc, hop⟩ := exists_of_productOperator? ht
    have hmem := mem_of_signOf? hw hc
    rcases hop with ⟨rfl, rfl⟩ | ⟨rfl, rfl⟩ | ⟨rfl, rfl⟩
    · refine ⟨⟨hdl, hdr, trivial⟩, n * m, ?_⟩
      rw [Expression.worth, hn, hm, Int.cast_mul]
      rfl
    · exact absurd hmem hplain.2.1.1
    · exact absurd hmem hplain.2.1.2.1
  | sum hl ht hw hr ihl ihr =>
    rw [isPlain_append, isPlain_append] at hplain
    obtain ⟨hdl, n, hn⟩ := ihl hplain.1
    obtain ⟨hdr, m, hm⟩ := ihr hplain.2.2
    obtain ⟨c, hc, ⟨-, rfl⟩ | ⟨-, rfl⟩⟩ := exists_of_sumOperator? ht
    · refine ⟨⟨hdl, hdr, trivial⟩, n + m, ?_⟩
      rw [Expression.worth, hn, hm, Int.cast_add]
      rfl
    · refine ⟨⟨hdl, hdr, trivial⟩, n - m, ?_⟩
      rw [Expression.worth, hn, hm, Int.cast_sub]
      rfl
  | ofPrimary h ih => exact ih hplain
  | ofPower h ih => exact ih hplain
  | ofUnary h ih => exact ih hplain
  | ofProduct h ih => exact ih hplain

/-- **A polynomial is worth an integer** whatever its symbols stand for. -/
theorem IsPolynomial.exists_isWorth (h : IsPolynomial text) (assignment : Symbol → ℤ) :
    ∃ n : ℤ, IsWorth assignment .sum text n := by
  obtain ⟨⟨e, he⟩, hplain⟩ := h
  obtain ⟨hdefined, n, hn⟩ := Derives.exists_worth he hplain assignment
  exact ⟨n, e, he, hdefined, hn⟩

theorem IsPolynomial.hasWorth (h : IsPolynomial text) (assignment : Symbol → ℤ) :
    HasWorth assignment text := by
  obtain ⟨n, hn⟩ := h.exists_isWorth assignment
  exact hn.hasWorth

/-- A plain text that is worth something is a polynomial. -/
theorem IsWorth.isPolynomial (h : IsWorth assignment .sum text q) (hplain : IsPlain text) :
    IsPolynomial text :=
  ⟨h.imp fun _ he => he.1, hplain⟩

theorem IsWorth.exists_intCast (h : IsWorth assignment .sum text q) (hplain : IsPlain text) :
    ∃ n : ℤ, q = n := by
  obtain ⟨n, hn⟩ := (h.isPolynomial hplain).exists_isWorth assignment
  exact ⟨n, h.unique hn⟩

/-! ### Symbols of terms -/

/-- Parts of a text have no other characters than the text. -/
theorem subset_of_mem_splitFrom {separator : Char} {depth : Int}
    (h : part ∈ splitFrom separator depth text) : part ⊆ text := by
  induction text generalizing depth part with
  | nil =>
    rw [splitFrom_nil, List.mem_singleton] at h
    exact h ▸ List.Subset.refl _
  | cons c text ih =>
    rw [splitFrom] at h
    split at h
    · rcases List.mem_cons.mp h with rfl | h
      · exact List.nil_subset _
      · exact List.subset_cons_of_subset c (ih h)
    · obtain ⟨first, parts, hsplit⟩ := List.exists_cons_of_ne_nil
        (splitFrom_ne_nil separator (depthAfter depth c) text)
      rw [hsplit, List.modifyHead_cons] at h
      rcases List.mem_cons.mp h with rfl | h
      · exact List.cons_subset_cons c (ih (by rw [hsplit]; exact List.mem_cons_self))
      · exact List.subset_cons_of_subset c (ih (by rw [hsplit]; exact List.mem_cons_of_mem _ h))

namespace LengthTerm

variable {t : LengthTerm ℚ} {symbol : List Char}

theorem subset_of_ofProduct? (h : ofProduct? text = some t) (hsymbol : t.symbol? = some symbol) :
    symbol ⊆ text := by
  unfold ofProduct? at h
  split at h
  · split at h
    · exact absurd h (by simp)
    · simp only at h
      split at h
      · exact absurd h (by simp)
      · split at h
        · obtain rfl := Option.some.inj h
          obtain rfl := Option.some.inj hsymbol
          exact List.Subset.trans (Text.trim_subset _) (List.drop_subset _ _)
        · exact absurd h (by simp)
  · exact absurd h (by simp)

/-- The symbol of a term has no other characters than the text of the term. -/
theorem subset_of_parse? (h : parse? text = some t) (hsymbol : t.symbol? = some symbol) :
    symbol ⊆ text := by
  simp only [parse?] at h
  split at h
  · exact absurd h (by simp)
  · split at h
    · obtain rfl := Option.some.inj h
      exact absurd hsymbol (by simp [constant])
    · obtain rfl := Option.some.inj h
      refine List.Subset.trans ?_ (Text.trim_subset text)
      cases hproduct : (ofProduct? (Text.trim text) : Option (LengthTerm ℚ)) with
      | none =>
        rw [hproduct] at hsymbol
        exact Option.some.inj hsymbol ▸ List.Subset.refl _
      | some t =>
        rw [hproduct] at hsymbol
        exact subset_of_ofProduct? hproduct hsymbol

/-- **No remainder is taken in the symbol** of the term. -/
def HasNoRemainder (t : LengthTerm ℚ) : Prop :=
  ∀ symbol, t.symbol? = some symbol → '%' ∉ symbol

theorem hasNoRemainder_constant (a : ℚ) : (constant a).HasNoRemainder := by
  intro symbol hsymbol
  exact absurd hsymbol (by simp [constant])

theorem hasNoRemainder_symbolic (h : '%' ∉ symbol) : (symbolic a symbol).HasNoRemainder := by
  intro symbol' hsymbol
  obtain rfl := Option.some.inj hsymbol
  exact h

theorem HasNoRemainder.render (h : t.HasNoRemainder) : '%' ∉ t.render := by
  unfold LengthTerm.render
  cases hsymbol : t.symbol? with
  | none => exact not_mem_numberText _
  | some symbol =>
    have hfree := h symbol hsymbol
    simp only
    split
    · exact hfree
    · split <;> simp [not_mem_numberText, hfree]

end LengthTerm

namespace LengthSum

variable {s s' : LengthSum ℚ} {t : LengthTerm ℚ} {terms : List (LengthTerm ℚ)}

open LengthTerm

/-- The symbols that are read from a text have no other characters than the text. -/
theorem hasNoRemainder_of_mem_termsOf (h : '%' ∉ source) (ht : t ∈ termsOf source) :
    t.HasNoRemainder := by
  unfold termsOf at ht
  split at ht
  · obtain rfl := List.mem_singleton.mp ht
    exact hasNoRemainder_constant _
  · obtain ⟨part, hpart, hparse⟩ := List.mem_filterMap.mp ht
    intro symbol hsymbol hmem
    exact h (subset_of_mem_splitFrom hpart (subset_of_parse? hparse hsymbol hmem))

/-- Bringing terms together makes no new symbols. -/
theorem hasNoRemainder_of_mem_mergeSymbol {coefficient : ℚ} {symbol : List Char}
    (hsymbol : '%' ∉ symbol) (hterms : ∀ t ∈ terms, t.HasNoRemainder) :
    ∀ t ∈ mergeSymbol coefficient symbol terms, t.HasNoRemainder := by
  induction terms with
  | nil =>
    intro t ht
    obtain rfl := List.mem_singleton.mp ht
    exact hasNoRemainder_symbolic hsymbol
  | cons t terms ih =>
    obtain ⟨ht, hothers⟩ := List.forall_mem_cons.mp hterms
    rw [mergeSymbol]
    split
    · exact List.forall_mem_cons.mpr ⟨ht, hothers⟩
    · exact List.forall_mem_cons.mpr ⟨ht, ih hothers⟩

theorem hasNoRemainder_of_mem_folded (h : ∀ t ∈ s.terms, t.HasNoRemainder) :
    ∀ t ∈ s.folded, t.HasNoRemainder := by
  have hmerge : ∀ start, (∀ t ∈ start, t.HasNoRemainder) →
      ∀ t ∈ s.terms.foldl mergeTerm start, t.HasNoRemainder := by
    generalize s.terms = terms at h
    induction terms with
    | nil => exact fun start hstart => hstart
    | cons t terms ih =>
      intro start hstart
      obtain ⟨ht, hothers⟩ := List.forall_mem_cons.mp h
      refine ih hothers _ ?_
      rw [mergeTerm]
      split
      · exact hstart
      · rename_i symbol hsymbol
        exact hasNoRemainder_of_mem_mergeSymbol (ht symbol hsymbol) hstart
  intro t ht
  rw [folded_eq] at ht
  rcases List.mem_append.mp ht with ht | ht
  · exact hmerge [] (by simp) t (List.mem_of_mem_filter ht)
  · rw [mem_integerTerms ht]
    exact hasNoRemainder_constant _

theorem not_mem_renderTerms (h : ∀ t ∈ terms, t.HasNoRemainder) : '%' ∉ renderTerms terms := by
  induction terms with
  | nil => simp [renderTerms]
  | cons t terms ih =>
    obtain ⟨ht, hothers⟩ := List.forall_mem_cons.mp h
    cases terms with
    | nil => simpa [renderTerms] using ht.render
    | cons t' terms =>
      have := ih hothers
      simp only [renderTerms, List.map_cons, List.intercalate_cons_cons] at this ⊢
      simp [ht.render, this]

theorem not_mem_productText {factor : List Char} (hcount : '%' ∉ count) (hfactor : '%' ∉ factor) :
    '%' ∉ productText count factor := by
  have hcount := Text.not_mem_trim hcount
  have hfactor := Text.not_mem_trim hfactor
  simp only [productText]
  split
  · exact hfactor
  · split <;> simp [hcount, hfactor]

/-- **Multiplying a sum** takes no remainders. -/
theorem hasNoRemainder_of_mem_times (hcount : '%' ∉ count) (h : ∀ t ∈ s.terms, t.HasNoRemainder) :
    ∀ t ∈ (s.times count).terms, t.HasNoRemainder := by
  have htrim := Text.not_mem_trim hcount
  have hfolded := hasNoRemainder_of_mem_folded h
  have hsingle : ∀ t : LengthTerm ℚ, t.HasNoRemainder →
      ∀ t' ∈ (⟨[t]⟩ : LengthSum ℚ).terms, t'.HasNoRemainder := by
    intro t ht t' ht'
    obtain rfl := List.mem_singleton.mp ht'
    exact ht
  -- There is one case for each way in which the product is formed.
  simp only [times]
  split
  · exact h
  · split
    · split
      · simp
      · split
        · exact hsingle _ (hasNoRemainder_constant _)
        · exact hsingle _ (hasNoRemainder_symbolic htrim)
    · rename_i hvalue
      split
      · rename_i coefficient symbol hsymbol
        have hfree : '%' ∉ symbol :=
          hfolded ⟨coefficient, some symbol⟩ (by simp [hsymbol]) symbol rfl
        split
        · exact hsingle _ (hasNoRemainder_symbolic hfree)
        · exact hsingle _ (hasNoRemainder_symbolic (not_mem_productText htrim hfree))
      · intro t ht
        have hconstant : s.isConstant = false := by
          cases hconstant : s.isConstant with
          | false => rfl
          | true => exact absurd hvalue (by simp [value?, hconstant])
        rw [(foldedText_of_not_isConstant hconstant).1, terms_parse] at ht
        exact hasNoRemainder_of_mem_termsOf
          (not_mem_productText htrim (not_mem_renderTerms hfolded)) ht

/-! ### Constants -/

theorem exists_total (h : ∀ t ∈ terms, ∃ n : ℤ, t.coefficient = n) : ∃ n : ℤ, total terms = n := by
  rw [total_eq]
  induction terms with
  | nil => exact ⟨0, by simp⟩
  | cons t terms ih =>
    obtain ⟨ht, hothers⟩ := List.forall_mem_cons.mp h
    obtain ⟨n, hn⟩ := ht
    obtain ⟨m, hm⟩ := ih hothers
    exact ⟨n + m, by rw [List.map_cons, List.sum_cons, hn, hm, Int.cast_add]⟩

/-- The constants of a polynomial are integers. -/
theorem exists_coefficient_of_mem_termsOf (h : IsPolynomial source) (ht : t ∈ termsOf source)
    (hconstant : t.symbol? = none) : ∃ n : ℤ, t.coefficient = n := by
  -- A constant is worth the same under every assignment, so any one will do.
  have hworth := h.hasWorth fun _ => 0
  unfold termsOf at ht
  split at ht
  · rename_i value hvalue
    obtain rfl := List.mem_singleton.mp ht
    obtain ⟨n, hn⟩ := h.exists_isWorth fun _ => 0
    exact ⟨n, hn.eq_of_evaluate? hvalue⟩
  · obtain ⟨part, hpart, hparse⟩ := List.mem_filterMap.mp ht
    obtain ⟨hparts, -⟩ := IsWorth.sum_splitTopLevel hworth
    have hplain : IsPlain part := h.2.subset (subset_of_mem_splitFrom hpart)
    obtain ⟨n, hn⟩ := (hparts part hpart).exists_intCast hplain
    obtain ⟨t', hparse', -, hworth'⟩ := LengthTerm.exists_parse? (hparts part hpart)
    obtain rfl := Option.some.inj (hparse'.symm.trans hparse)
    rw [LengthTerm.worth, hconstant] at hworth'
    exact ⟨n, hworth'.trans hn⟩

/-! ### What a sum amounts to -/

/-- **The sum amounts to an integer**, without a loss when it is folded and whatever it is
multiplied by. -/
structure AmountsTo (assignment : Symbol → ℤ) (s : LengthSum ℚ) (q : ℚ) : Prop where
  /-- The terms are formulas. -/
  sound : ∀ t ∈ s.terms, t.IsSound assignment
  /-- No remainders are taken in their symbols. -/
  noRemainder : ∀ t ∈ s.terms, t.HasNoRemainder
  /-- The constants add up to an integer. -/
  constant : ∃ n : ℤ, s.constantTotal = n
  /-- The terms are worth the number together. -/
  worth : termsWorth assignment s.terms = q
  /-- The number is an integer. -/
  integer : ∃ n : ℤ, q = n

theorem constantTotal_addSum :
    (s.addSum s').constantTotal = s.constantTotal + s'.constantTotal := by
  simp only [constantTotal, addSum, total_eq, List.filter_append, List.map_append, List.sum_append]

namespace AmountsTo

theorem nil : AmountsTo assignment ⟨[]⟩ 0 := by
  refine ⟨by simp, by simp, ⟨0, ?_⟩, rfl, ⟨0, Int.cast_zero.symm⟩⟩
  rw [constantTotal, total_eq]
  simp

theorem singleton (hsound : t.IsSound assignment) (hfree : t.HasNoRemainder) {n : ℤ}
    (hworth : t.worth assignment = n) : AmountsTo assignment ⟨[t]⟩ n := by
  refine ⟨by simpa using hsound, by simpa using hfree, ?_, ?_, ⟨n, rfl⟩⟩
  · cases hsymbol : t.symbol? with
    | none =>
      refine ⟨n, ?_⟩
      rw [constantTotal, List.filter_cons_of_pos (by simp [LengthTerm.isConstant, hsymbol]),
        total_eq, ← hworth, LengthTerm.worth, hsymbol]
      simp
    | some symbol =>
      refine ⟨0, ?_⟩
      rw [constantTotal, List.filter_cons_of_neg (by simp [LengthTerm.isConstant, hsymbol]),
        total_eq]
      simp
  · rw [termsWorth_cons, termsWorth_nil, add_zero, hworth]

/-- **Sums add up.** -/
theorem addSum (h : AmountsTo assignment s q) (h' : AmountsTo assignment s' r) :
    AmountsTo assignment (s.addSum s') (q + r) := by
  obtain ⟨n, hn⟩ := h.constant
  obtain ⟨n', hn'⟩ := h'.constant
  obtain ⟨m, hm⟩ := h.integer
  obtain ⟨m', hm'⟩ := h'.integer
  refine ⟨fun t ht => ?_, fun t ht => ?_, ⟨n + n', ?_⟩, ?_, ⟨m + m', ?_⟩⟩
  · exact (List.mem_append.mp ht).elim (h.sound t) (h'.sound t)
  · exact (List.mem_append.mp ht).elim (h.noRemainder t) (h'.noRemainder t)
  · rw [constantTotal_addSum, hn, hn', Int.cast_add]
  · rw [LengthSum.addSum, termsWorth_append, h.worth, h'.worth]
  · rw [hm, hm', Int.cast_add]

theorem addConstant (h : AmountsTo assignment s q) (n : ℤ) :
    AmountsTo assignment (s.addConstant n) (q + n) :=
  h.addSum (singleton (isSound_constant _) (hasNoRemainder_constant _) rfl)

/-- **A polynomial** amounts to what it is worth. -/
theorem parse (h : IsPolynomial source) :
    AmountsTo assignment (parse source) (textWorth assignment source) := by
  obtain ⟨hsound, hworth⟩ := termsOf_sound (h.hasWorth assignment)
  obtain ⟨n, hn⟩ := h.exists_isWorth assignment
  refine ⟨hsound, fun t ht => hasNoRemainder_of_mem_termsOf h.2.2.1 ht, ?_, hworth,
    ⟨n, hn.textWorth_eq⟩⟩
  refine exists_total fun t ht => ?_
  rw [List.mem_filter, LengthTerm.isConstant, Option.isNone_iff_eq_none] at ht
  exact exists_coefficient_of_mem_termsOf h ht.1 ht.2

theorem add (h : AmountsTo assignment s q) (hsource : IsPolynomial source) :
    AmountsTo assignment (s.add source) (q + textWorth assignment source) :=
  h.addSum (parse hsource)

/-- **Multiplying by a count** that is an integer. -/
theorem times {n : ℤ} (h : AmountsTo assignment s q) (hcount : IsWorth assignment .product count n)
    (hfree : '%' ∉ count) : AmountsTo assignment (s.times count) (n * q) := by
  obtain ⟨k, hk⟩ := h.constant
  obtain ⟨m, hm⟩ := h.integer
  have hworth : s.foldedWorth assignment = q := (foldedWorth_eq h.sound hk).trans h.worth
  have hnone := hasNoRemainder_of_mem_times hfree h.noRemainder
  have hmultiple := isMultiple_times h.sound hcount.toSum
    (.inr ⟨hcount, fun t symbol hfolded hsymbol => isFactor_of_not_mem
      (hasNoRemainder_of_mem_folded h.noRemainder t (by simp [hfolded]) symbol hsymbol)⟩)
  generalize s.times count = s' at hnone hmultiple
  cases hmultiple with
  | same hsame =>
    rw [hworth] at hsame
    rwa [hsame]
  | nothing hzero =>
    rw [hworth] at hzero
    rw [hzero]
    exact nil
  | @term t hsymbol hproduct hinteger =>
    rw [hworth, hm, ← Int.cast_mul] at hproduct
    rw [hm, ← Int.cast_mul]
    exact singleton (hinteger n rfl) (hnone t (by simp)) hproduct

/-- **The text of a sum** is worth what the sum amounts to. -/
theorem isWorth_text (h : AmountsTo assignment s q) :
    IsWorth assignment .sum (s.foldedText true) q := by
  obtain ⟨n, hn⟩ := h.constant
  rw [← h.worth, ← foldedWorth_eq h.sound hn]
  exact isWorth_foldedText_true h.sound

end AmountsTo

end LengthSum

end WireCodec
