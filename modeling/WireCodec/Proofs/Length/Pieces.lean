import WireCodec.Proofs.Length.Shape

/-!
# The pieces of a formula

Lengths are cut at the `+` signs of their top level, and products at their first `*`. The pieces of
a formula are formulas again, and their worths add up or multiply to its worth.

For the sum this is `WireCodec.IsWorth.sum_splitTopLevel`. The `-` signs at the top level stay
inside of the pieces, and as sums group to the left it takes an induction from the last product to
the first to see that no piece changes its sign. A product without quotients and remainders may be
cut at any of its `*` signs (`WireCodec.IsWorth.findTopLevel?_times`).
-/

namespace WireCodec

open Token Expression

variable {assignment : Symbol → ℤ} {level : Level} {text left right w : List Char} {a b q : ℚ}

/-! ### One more product of a sum -/

section Splitting

variable {α : Type} {spells : α → List Char → Prop} {t : Token α} {parts : List (List Char)}
  {last : List Char}

/-- A `+` ends the last part, up to blanks, and the product behind it is a part of its own. -/
theorem splitTopLevel_append_plus (hl : IsNested left)
    (hsplit : splitTopLevel '+' left = parts ++ [last]) (hw : IsWritten spells t w)
    (ht : signOf? t = some '+') (hr : '+' ∉ topLevel 0 right) :
    ∃ before after, (∀ c ∈ before, isBlank c = true) ∧ (∀ c ∈ after, isBlank c = true) ∧
      splitTopLevel '+' (left ++ (w ++ right)) =
        parts ++ [last ++ before] ++ [after ++ right] := by
  obtain ⟨before, after, rfl, hbefore, hafter⟩ := exists_of_signOf? hw ht
  refine ⟨before, after, hbefore, hafter, ?_⟩
  have hdepth := hl.depthBehind 0
  have hfree : '+' ∉ topLevel (depthBehind 0 left) before := by
    rw [hdepth]
    exact fun hmem => (hasShape_blanks hbefore).2 _ hmem (by simp)
  have hfree' : '+' ∉ topLevel 0 (after ++ right) := by
    rw [(hasShape_blanks hafter).1.topLevel_append, List.mem_append, not_or]
    exact ⟨fun hmem => (hasShape_blanks hafter).2 _ hmem (by simp), hr⟩
  have hdepth' : depthBehind 0 (left ++ before) = 0 := by
    rw [depthBehind_append, hdepth, (hasShape_blanks hbefore).1.depthBehind]
  rw [splitTopLevel, List.append_assoc before, ← List.append_assoc left, List.cons_append,
    splitFrom_append_separator rfl hdepth', splitFrom_append rfl hsplit hfree,
    splitFrom_eq_singleton hfree']

/-- With a `-` the product becomes a piece of the last part. -/
theorem splitTopLevel_append_minus (hl : IsNested left)
    (hsplit : splitTopLevel '+' left = parts ++ [last]) (hw : IsWritten spells t w)
    (ht : signOf? t = some '-') (hr : '+' ∉ topLevel 0 right) :
    splitTopLevel '+' (left ++ (w ++ right)) = parts ++ [last ++ (w ++ right)] := by
  have hminus : HasShape .product w :=
    hasShape_sign hw ht (by decide) (by decide) (by simp [Level.Admits])
  have hfree : '+' ∉ topLevel (depthBehind 0 left) (w ++ right) := by
    rw [hl.depthBehind, hminus.1.topLevel_append, List.mem_append, not_or]
    exact ⟨fun hmem => hminus.2 _ hmem rfl, hr⟩
  exact splitFrom_append rfl hsplit hfree

end Splitting

/-! ### Worths of texts -/

open Classical in
/-- What a text is worth if it is a formula that is defined, and zero otherwise. -/
noncomputable def textWorth (assignment : Symbol → ℤ) (text : List Char) : ℚ :=
  if h : ∃ q, IsWorth assignment .sum text q then h.choose else 0

/-- **The text is a formula that is defined.** -/
def HasWorth (assignment : Symbol → ℤ) (text : List Char) : Prop :=
  IsWorth assignment .sum text (textWorth assignment text)

/-- **Nothing is divided** at the top level of the text. -/
def HasNoQuotient (text : List Char) : Prop :=
  '/' ∉ topLevel 0 text ∧ '%' ∉ topLevel 0 text

namespace IsWorth

theorem textWorth_eq (h : IsWorth assignment .sum text q) : textWorth assignment text = q := by
  have hex : ∃ q, IsWorth assignment .sum text q := ⟨q, h⟩
  rw [textWorth, dif_pos hex]
  exact hex.choose_spec.unique h

theorem hasWorth (h : IsWorth assignment .sum text q) : HasWorth assignment text := by
  rwa [HasWorth, h.textWorth_eq]

theorem shape (h : IsWorth assignment level text q) : HasShape level text := by
  obtain ⟨e, he, -⟩ := h
  exact he.shape

theorem ne_nil (h : IsWorth assignment level text q) : text ≠ [] := by
  obtain ⟨e, he, -⟩ := h
  exact he.ne_nil Operand.isSolid

theorem trim (h : IsWorth assignment level text q) :
    IsWorth assignment level (Text.trim text) q := by
  obtain ⟨e, he, hworth⟩ := h
  exact ⟨e, he.trim Operand.isSolid, hworth⟩

theorem blanks_append (h : IsWorth assignment level text q) {blanks : List Char}
    (hblanks : ∀ c ∈ blanks, isBlank c = true) : IsWorth assignment level (blanks ++ text) q := by
  obtain ⟨e, he, hworth⟩ := h
  exact ⟨e, he.blanks_append Operand.isSolid hblanks, hworth⟩

theorem append_blanks (h : IsWorth assignment level text q) {blanks : List Char}
    (hblanks : ∀ c ∈ blanks, isBlank c = true) : IsWorth assignment level (text ++ blanks) q := by
  obtain ⟨e, he, hworth⟩ := h
  exact ⟨e, he.append_blanks Operand.isSolid hblanks, hworth⟩

/-! ### Sums -/

/-- **A formula is the sum of its parts** between the `+` signs at its top level. -/
theorem sum_splitTopLevel (h : IsWorth assignment .sum text q) :
    (∀ part ∈ splitTopLevel '+' text, HasWorth assignment part) ∧
      ((splitTopLevel '+' text).map (textWorth assignment)).sum = q := by
  induction h using IsWorth.sum_induction with
  | ofProduct text q h =>
    have hfree : '+' ∉ topLevel 0 text := fun hmem => h.shape.2 _ hmem rfl
    rw [splitTopLevel, splitFrom_eq_singleton hfree]
    refine ⟨fun part hpart => ?_, ?_⟩
    · obtain rfl := List.mem_singleton.mp hpart
      exact h.toSum.hasWorth
    · simp [h.toSum.textWorth_eq]
  | sum left w right a b t op hl ht hw hr ih =>
    obtain ⟨hparts, hsum⟩ := ih
    obtain ⟨parts, last, hsplit⟩ : ∃ parts last, splitTopLevel '+' left = parts ++ [last] :=
      ⟨_, _, (List.dropLast_append_getLast (splitFrom_ne_nil '+' 0 left)).symm⟩
    rw [hsplit] at hparts hsum
    have hlast := hparts last (by simp)
    have hfree : '+' ∉ topLevel 0 right := fun hmem => hr.shape.2 _ hmem rfl
    obtain ⟨c, hc, hop⟩ := exists_of_sumOperator? ht
    rcases hop with ⟨rfl, rfl⟩ | ⟨rfl, rfl⟩
    · obtain ⟨before, after, hbefore, hafter, heq⟩ :=
        splitTopLevel_append_plus hl.shape.1 hsplit hw hc hfree
      have hright := (hr.blanks_append hafter).toSum
      have hlast' := hlast.append_blanks hbefore
      rw [heq]
      refine ⟨fun part hpart => ?_, ?_⟩
      · simp only [List.append_assoc, List.mem_append, List.mem_cons, List.not_mem_nil,
          or_false, List.singleton_append] at hpart
        rcases hpart with hpart | rfl | rfl
        · exact hparts part (by simp [hpart])
        · exact hlast'.hasWorth
        · exact hright.hasWorth
      · simp only [List.map_append, List.map_cons, List.map_nil, List.sum_append, List.sum_cons,
          List.sum_nil, add_zero] at hsum ⊢
        rw [hlast'.textWorth_eq, hright.textWorth_eq, hsum]
        rfl
    · have hlast' := IsWorth.sum hlast ht hw hr
      rw [splitTopLevel_append_minus hl.shape.1 hsplit hw hc hfree]
      refine ⟨fun part hpart => ?_, ?_⟩
      · simp only [List.mem_append, List.mem_singleton] at hpart
        rcases hpart with hpart | rfl
        · exact hparts part (by simp [hpart])
        · exact hlast'.hasWorth
      · simp only [List.map_append, List.map_cons, List.map_nil, List.sum_append, List.sum_cons,
          List.sum_nil, add_zero] at hsum ⊢
        rw [hlast'.textWorth_eq, ← hsum]
        exact (add_sub_assoc _ _ _).symm

/-! ### Products -/

/-- An operator behind a formula is at the top level. -/
theorem mem_topLevel_of_signOf? {t : Token Operand} {c : Char}
    (hl : IsWorth assignment level left a) (hw : IsWritten Operand.IsSpelled t w)
    (hc : signOf? t = some c) (right : List Char) :
    c ∈ (topLevel 0 (left ++ (w ++ right))).tail := by
  obtain ⟨before, after, rfl, hbefore, hafter⟩ := exists_of_signOf? hw hc
  obtain ⟨d, tail, rfl⟩ := List.exists_cons_of_ne_nil hl.ne_nil
  rw [hl.shape.1.topLevel_append, List.append_assoc, (hasShape_blanks hbefore).1.topLevel_append,
    topLevel_zero_cons, List.cons_append, List.tail_cons, List.cons_append, topLevel_zero_cons]
  simp

/-- A plain product is a product, and has no quotients. -/
theorem product_of_isProduct (h : IsWorth assignment .sum text q)
    (hproduct : isProduct text = true) :
    IsWorth assignment .product text q ∧ HasNoQuotient text := by
  obtain ⟨hoperators, hquotient⟩ := topLevel_of_isProduct hproduct
  refine ⟨?_, hquotient⟩
  induction h using IsWorth.sum_induction with
  | ofProduct text q h => exact h
  | sum left w right a b t op hl ht hw hr _ =>
    obtain ⟨c, hc, hop⟩ := exists_of_sumOperator? ht
    have := hoperators c (hl.mem_topLevel_of_signOf? hw hc right)
    rcases hop with ⟨rfl, -⟩ | ⟨rfl, -⟩ <;> exact absurd this (by decide)

/-- One more factor. -/
theorem mul (hl : IsWorth assignment .product left a) (hw : IsWritten Operand.IsSpelled .times w)
    (hr : IsWorth assignment .unary right b) :
    IsWorth assignment .product (left ++ (w ++ right)) (a * b) :=
  hl.product (rfl : productOperator? Token.times = some .multiply) hw hr trivial

/-- **Induction on a product without quotients**, from its first unary on. -/
theorem times_induction {motive : List Char → ℚ → Prop}
    (ofUnary : ∀ text q, IsWorth assignment .unary text q → motive text q)
    (times : ∀ left w right a b, IsWorth assignment .product left a → motive left a →
      IsWritten Operand.IsSpelled .times w → IsWorth assignment .unary right b →
      motive (left ++ (w ++ right)) (a * b))
    (h : IsWorth assignment .product text q) (hquotient : HasNoQuotient text) : motive text q := by
  induction h using IsWorth.product_induction with
  | ofUnary text q h => exact ofUnary text q h
  | product left w right a b t op hl ht hw hr hop ih =>
    have hleft : HasNoQuotient left := by
      unfold HasNoQuotient at hquotient ⊢
      rw [hl.shape.1.topLevel_append, List.mem_append, List.mem_append, not_or, not_or] at hquotient
      exact ⟨hquotient.1.1, hquotient.2.1⟩
    obtain ⟨c, hc, hop'⟩ := exists_of_productOperator? ht
    have hmem := List.mem_of_mem_tail (hl.mem_topLevel_of_signOf? hw hc right)
    rcases hop' with ⟨rfl, rfl⟩ | ⟨rfl, -⟩ | ⟨rfl, -⟩
    · obtain rfl : t = .times := by cases t <;> simp_all [productOperator?]
      exact times left w right a b hl (ih hleft) hw hr
    · exact absurd hmem hquotient.1
    · exact absurd hmem hquotient.2

/-- A product without remainders may be multiplied from the left. -/
theorem times (hl : IsWorth assignment .product left a) (hr : IsWorth assignment .product right b)
    (hremainder : '%' ∉ topLevel 0 right) :
    IsWorth assignment .product (left ++ '*' :: right) (a * b) := by
  induction hr using IsWorth.product_induction with
  | ofUnary right b hr => exact hl.mul (isWritten_sign rfl) hr
  | product right w last b c t op hr ht hw hlast hop ih =>
    have hfirst : '%' ∉ topLevel 0 right := fun hmem =>
      hremainder (by rw [hr.shape.1.topLevel_append]; exact List.mem_append_left _ hmem)
    have := (ih hfirst).product ht hw hlast hop
    rw [List.append_assoc, List.cons_append] at this
    convert this using 1
    -- The factor goes into the first number of a product, and of a quotient.
    obtain ⟨sign, hsign, ⟨-, rfl⟩ | ⟨-, rfl⟩ | ⟨rfl, -⟩⟩ := exists_of_productOperator? ht
    · exact (mul_assoc a b c).symm
    · exact (mul_div_assoc a b c).symm
    · exact absurd (List.mem_of_mem_tail (hr.mem_topLevel_of_signOf? hw hsign last)) hremainder

/-- **A product is cut at its first `*`** into a coefficient and the rest, if it has a `*` at its
top level. -/
theorem findTopLevel?_times (h : IsWorth assignment .product text q)
    (hquotient : HasNoQuotient text) {place : ℕ}
    (hplace : findTopLevel? '*' text = some place) :
    ∃ a b, IsWorth assignment .sum (text.take place) a ∧
      IsWorth assignment .sum (text.drop (place + 1)) b ∧ q = a * b := by
  have hkey : ('*' ∉ topLevel 0 text) ∨ ∃ first rest a b, text = first ++ '*' :: rest ∧
      '*' ∉ topLevel 0 first ∧ IsWorth assignment .sum first a ∧
      IsWorth assignment .product rest b ∧ q = a * b := by
    refine times_induction (motive := fun text q => ('*' ∉ topLevel 0 text) ∨
      ∃ first rest a b, text = first ++ '*' :: rest ∧ '*' ∉ topLevel 0 first ∧
        IsWorth assignment .sum first a ∧ IsWorth assignment .product rest b ∧ q = a * b)
      ?_ ?_ h hquotient
    · intro text q h
      exact .inl fun hmem => h.shape.2 _ hmem (by simp)
    · intro left w right a b hl ih hw hr
      rcases ih with hfree | ⟨first, rest, c, d, rfl, hfree, hfirst, hrest, rfl⟩
      · -- The new `*` is the first one.
        obtain ⟨before, after, rfl, hbefore, hafter⟩ := exists_of_signOf? hw rfl
        refine .inr ⟨left ++ before, after ++ right, a, b, by simp, ?_,
          (hl.append_blanks hbefore).toSum, (hr.blanks_append hafter).ofUnary, rfl⟩
        rw [hl.shape.1.topLevel_append, List.mem_append, not_or]
        exact ⟨hfree, fun hmem => (hasShape_blanks hbefore).2 _ hmem (by simp)⟩
      · exact .inr ⟨first, rest ++ (w ++ right), c, d * b, by simp, hfree, hfirst,
          hrest.mul hw hr, mul_assoc _ _ _⟩
  rcases hkey with hfree | ⟨first, rest, a, b, rfl, hfree, hfirst, hrest, rfl⟩
  · rw [findTopLevel?, findFrom?_eq_none hfree] at hplace
    exact absurd hplace (by simp)
  · rw [findTopLevel?, findFrom?_append (hfirst.shape.1.depthBehind 0) hfree,
      Option.some.injEq] at hplace
    subst hplace
    refine ⟨a, b, ?_, ?_, rfl⟩
    · rwa [List.take_left]
    · have hdrop : (first ++ '*' :: rest).drop (first.length + 1) = rest := by simp
      rw [hdrop]
      exact hrest.toSum

end IsWorth

end WireCodec
