import WireCodec.Proofs.Length.Polynomial

/-!
# The lengths of structures

A structure is put together field by field and group by group, and a group is a structure of its own
(`WireCodec.Layout`). What its three lengths are meant to be is said by recursion on the layout
(`WireCodec.Layout.worth`): every field adds its length, but some fields are left out and strings
may count as one byte, and a group adds its own length as often as its counts say.

If lengths are polynomials and counts are numbers or names, the three texts are worth these lengths,
whatever the symbols stand for (`WireCodec.Layout.isWorth_texts`). The three sums go through the
same steps and differ in what they leave out, so they are one sum with a kind
(`WireCodec.LengthKind`). A step keeps what the sum amounts to: `WireCodec.LengthSum.AmountsTo.add`
for a field, `WireCodec.LengthSum.AmountsTo.times_arrayCount` for a group.
-/

namespace WireCodec

open Expression LengthSum

variable {assignment : Symbol → ℤ} {text array array2d : List Char} {q : ℚ} {s : LengthSum ℚ}

/-! ### Counts -/

/-- **The text is a count**: there is nothing in it, or a natural number, or a name. -/
def IsCount (text : List Char) : Prop :=
  Text.trim text = [] ∨ (Text.trim text ≠ [] ∧ ∀ d ∈ Text.trim text, d.isDigit = true) ∨
    IsName (Text.trim text)

/-- What a count is worth. A blank one does not repeat anything. -/
noncomputable def countWorth (assignment : Symbol → ℤ) (text : List Char) : ℚ :=
  if Text.trim text = [] then 1 else textWorth assignment (Text.trim text)

/-- A count that is not blank is worth an integer. -/
theorem IsCount.exists_isWorth (h : IsCount text) (hne : Text.trim text ≠ [])
    (assignment : Symbol → ℤ) :
    ∃ n : ℤ, IsWorth assignment .product (Text.trim text) n ∧
      countWorth assignment text = n ∧ ((∀ symbol, 0 ≤ assignment symbol) → 0 ≤ n) := by
  have hworth : ∀ {n : ℤ}, IsWorth assignment .unary (Text.trim text) n →
      countWorth assignment text = n := fun hn => by
    rw [countWorth, if_neg hne, hn.ofUnary.toSum.textWorth_eq]
  rcases h with hblank | ⟨hne, hdigits⟩ | hname
  · exact absurd hblank hne
  · have hn : IsWorth assignment .unary (Text.trim text) (digitsValue 10 (Text.trim text) : ℤ) := by
      rw [Int.cast_natCast]
      exact .digits hne hdigits
    exact ⟨_, hn.ofUnary, hworth hn, fun _ => Int.natCast_nonneg _⟩
  · have hn : IsWorth assignment .unary (Text.trim text)
        (assignment (.name (Text.trim text))) := .name hname
    exact ⟨_, hn.ofUnary, hworth hn, fun h => h _⟩

theorem countWorth_of_blank (h : Text.trim text = []) : countWorth assignment text = 1 :=
  if_pos h

theorem countWorth_nonneg (h : IsCount text) (hassignment : ∀ symbol, 0 ≤ assignment symbol) :
    0 ≤ countWorth assignment text := by
  by_cases hblank : Text.trim text = []
  · rw [countWorth_of_blank hblank]
    exact zero_le_one
  · obtain ⟨n, -, hn, hnonneg⟩ := h.exists_isWorth hblank assignment
    rw [hn]
    exact_mod_cast hnonneg hassignment

theorem IsCount.not_mem (h : IsCount text) : '%' ∉ Text.trim text := by
  intro hmem
  rcases h with hblank | ⟨-, hdigits⟩ | hname
  · exact absurd hmem (by simp [hblank])
  · exact absurd (hdigits _ hmem) (by decide)
  · exact absurd (hname.forall_isNameChar _ hmem) (by decide)

theorem not_mem_arrayCount (h : IsCount array) (h' : IsCount array2d) :
    '%' ∉ StructureLength.arrayCount ℚ array array2d := by
  simp only [StructureLength.arrayCount]
  split
  · exact h'.not_mem
  · split
    · exact h.not_mem
    · split
      · exact not_mem_numberText _
      · simp [h.not_mem, h'.not_mem]

/-- **The count of an array**, unless it is blank, is a product that is worth an integer. -/
theorem exists_isWorth_arrayCount (h : IsCount array) (h' : IsCount array2d)
    (hne : ¬(Text.trim array = [] ∧ Text.trim array2d = [])) (assignment : Symbol → ℤ) :
    ∃ n : ℤ, IsWorth assignment .product (StructureLength.arrayCount ℚ array array2d) n ∧
      countWorth assignment array * countWorth assignment array2d = n := by
  by_cases ha : Text.trim array = []
  · obtain ⟨n, hn, hworth, -⟩ := h'.exists_isWorth (fun hb => hne ⟨ha, hb⟩) assignment
    refine ⟨n, ?_, by rw [countWorth_of_blank ha, hworth, one_mul]⟩
    simpa [StructureLength.arrayCount, ha] using hn
  · obtain ⟨n, hn, hworth, -⟩ := h.exists_isWorth ha assignment
    by_cases hb : Text.trim array2d = []
    · refine ⟨n, ?_, by rw [countWorth_of_blank hb, hworth, mul_one]⟩
      simpa [StructureLength.arrayCount, ha, hb] using hn
    · obtain ⟨m, hm, hworth', -⟩ := h'.exists_isWorth hb assignment
      refine ⟨n * m, ?_, by rw [hworth, hworth', Int.cast_mul]⟩
      have hfree : '%' ∉ topLevel 0 (Text.trim (Text.trim array2d)) := fun hmem =>
        Text.not_mem_trim h'.not_mem (mem_of_mem_topLevel hmem)
      have hcount := isWorth_arrayCount hn.toSum hm.toSum (.inr ⟨hn, hm, hfree⟩)
      have htrim : StructureLength.arrayCount ℚ (Text.trim array) (Text.trim array2d) =
          StructureLength.arrayCount ℚ array array2d := by
        simp only [StructureLength.arrayCount, Text.trim_trim]
      rwa [htrim, ← Int.cast_mul] at hcount

/-- **A group is repeated** as often as the counts of its array say. -/
theorem LengthSum.AmountsTo.times_arrayCount (hs : AmountsTo assignment s q) (h : IsCount array)
    (h' : IsCount array2d) :
    AmountsTo assignment (s.times (StructureLength.arrayCount ℚ array array2d))
      (countWorth assignment array * countWorth assignment array2d * q) := by
  by_cases hblank : Text.trim array = [] ∧ Text.trim array2d = []
  · obtain ⟨ha, hb⟩ := hblank
    have hcount : StructureLength.arrayCount ℚ array array2d = [] := by
      simp [StructureLength.arrayCount, ha, hb]
    have hsame : s.times [] = s := by simp [LengthSum.times]
    rw [hcount, hsame, countWorth_of_blank ha, countWorth_of_blank hb, one_mul, one_mul]
    exact hs
  · obtain ⟨n, hn, hworth⟩ := exists_isWorth_arrayCount h h' hblank assignment
    rw [hworth]
    exact hs.times hn (not_mem_arrayCount h h')

/-! ### Kinds of lengths -/

/-- **Which of the three lengths** of a structure is meant. -/
inductive LengthKind
  /-- The least length. -/
  | least
  /-- The greatest length. -/
  | greatest
  /-- The length without the fields that have a default value. -/
  | nonDefault
deriving DecidableEq, Repr

namespace LengthKind

/-- A field with these flags is left out. -/
def omitsField : LengthKind → LengthFlags → Bool
  | least, flags => flags.variableLength || flags.dependent
  | greatest, _ => false
  | nonDefault, flags => flags.hasDefault

/-- A field with these flags counts as one byte. -/
def countsOne : LengthKind → LengthFlags → Bool
  | greatest, _ => false
  | _, flags => flags.string

/-- A group with these flags is left out. -/
def omitsGroup : LengthKind → (variableLength dependent : Bool) → Bool
  | least, variableLength, dependent => variableLength || dependent
  | _, _, _ => false

end LengthKind

namespace StructureLength

variable {α : Type} [Number α]

/-- The sum of a kind. -/
def sum (l : StructureLength α) : LengthKind → LengthSum α
  | .least => l.least
  | .greatest => l.greatest
  | .nonDefault => l.nonDefault

theorem sum_addField (l : StructureLength α) {length : List Char} (flags : LengthFlags)
    (kind : LengthKind) (hlength : Text.trim length ≠ []) :
    (l.addField length flags).sum kind =
      if kind.omitsField flags then l.sum kind
      else if kind.countsOne flags then (l.sum kind).addConstant 1
      else (l.sum kind).add length := by
  have hne : (Text.trim length).isEmpty = false := by simpa using hlength
  rw [addField, hne]
  cases kind <;> rfl

theorem sum_addGroup (l group : StructureLength α) (array array2d : List Char)
    (variableLength dependent : Bool) (kind : LengthKind) :
    (l.addGroup group array array2d variableLength dependent).sum kind =
      if kind.omitsGroup variableLength dependent then l.sum kind
      else (l.sum kind).addSum ((group.sum kind).times (arrayCount α array array2d)) := by
  cases kind <;> rfl

end StructureLength

/-! ### Layouts -/

/-- **How a structure is put together**, with the last call on the outside. -/
inductive Layout
  /-- There is nothing yet. -/
  | empty
  /-- One more field. -/
  | field (before : Layout) (length : List Char) (flags : LengthFlags)
  /-- One more group, repeated by the counts of an array. -/
  | group (before inner : Layout) (array array2d : List Char) (variableLength dependent : Bool)

namespace Layout

variable {layout : Layout}

/-- **The lengths that are kept** while the structure is put together. -/
def lengths (α : Type) [Number α] : Layout → StructureLength α
  | empty => {}
  | field before length flags => (lengths α before).addField length flags
  | group before inner array array2d variableLength dependent =>
    (lengths α before).addGroup (lengths α inner) array array2d variableLength dependent

/-- **What a length is meant to be.** -/
noncomputable def worth (assignment : Symbol → ℤ) (kind : LengthKind) : Layout → ℚ
  | empty => 0
  | field before length flags =>
    worth assignment kind before +
      if kind.omitsField flags then 0
      else if kind.countsOne flags then 1
      else textWorth assignment length
  | group before inner array array2d variableLength dependent =>
    worth assignment kind before +
      if kind.omitsGroup variableLength dependent then 0
      else countWorth assignment array * countWorth assignment array2d *
        worth assignment kind inner

/-- **The lengths of all fields are polynomials**, and all groups are repeated by counts. -/
def IsWellFormed : Layout → Prop
  | empty => True
  | field before length _ => before.IsWellFormed ∧ IsPolynomial length
  | group before inner array array2d _ _ =>
    before.IsWellFormed ∧ inner.IsWellFormed ∧ IsCount array ∧ IsCount array2d

/-- **No field has a negative length**, and every string has a byte at least. -/
def HasLengths (assignment : Symbol → ℤ) : Layout → Prop
  | empty => True
  | field before length flags =>
    before.HasLengths assignment ∧
      (if flags.string then 1 else 0) ≤ textWorth assignment length
  | group before inner _ _ _ _ => before.HasLengths assignment ∧ inner.HasLengths assignment

/-- **Each sum amounts to the length that it is meant to be.** -/
theorem amountsTo (h : layout.IsWellFormed) (assignment : Symbol → ℤ) (kind : LengthKind) :
    AmountsTo assignment ((layout.lengths ℚ).sum kind) (layout.worth assignment kind) := by
  induction layout with
  | empty => cases kind <;> exact .nil
  | field before length flags ih =>
    obtain ⟨hbefore, hlength⟩ := h
    have hsum := ih hbefore
    have hne : Text.trim length ≠ [] := (hlength.hasWorth assignment).trim.ne_nil
    rw [lengths, worth, StructureLength.sum_addField _ _ _ hne]
    split
    · rwa [add_zero]
    · split
      · exact_mod_cast hsum.addConstant 1
      · exact hsum.add hlength
  | group before inner array array2d variableLength dependent ih ihinner =>
    obtain ⟨hbefore, hinner, harray, harray2d⟩ := h
    have hsum := ih hbefore
    rw [lengths, worth, StructureLength.sum_addGroup]
    split
    · rwa [add_zero]
    · exact hsum.addSum ((ihinner hinner).times_arrayCount harray harray2d)

/-! ### Comparing the lengths -/

/-- A string has a length of one at least, and nothing is shorter than zero. -/
theorem le_length {length : List Char} {flags : LengthFlags}
    (h : (if flags.string then 1 else 0) ≤ textWorth assignment length) :
    0 ≤ textWorth assignment length ∧ (flags.string = true → 1 ≤ textWorth assignment length) := by
  split at h
  · exact ⟨zero_le_one.trans h, fun _ => h⟩
  · rename_i hstring
    exact ⟨h, fun htrue => absurd htrue hstring⟩

theorem worth_nonneg (h : layout.IsWellFormed) (hlengths : layout.HasLengths assignment)
    (hassignment : ∀ symbol, 0 ≤ assignment symbol) (kind : LengthKind) :
    0 ≤ layout.worth assignment kind := by
  induction layout with
  | empty => exact le_refl 0
  | field before length flags ih =>
    obtain ⟨hbefore, -⟩ := h
    obtain ⟨hothers, hlength⟩ := hlengths
    refine add_nonneg (ih hbefore hothers) ?_
    split
    · exact le_refl 0
    · split
      · exact zero_le_one
      · exact (le_length hlength).1
  | group before inner array array2d variableLength dependent ih ihinner =>
    obtain ⟨hbefore, hinner, harray, harray2d⟩ := h
    obtain ⟨hothers, hothers'⟩ := hlengths
    refine add_nonneg (ih hbefore hothers) ?_
    split
    · exact le_refl 0
    · exact mul_nonneg (mul_nonneg (countWorth_nonneg harray hassignment)
        (countWorth_nonneg harray2d hassignment)) (ihinner hinner hothers')

/-- **No length is above the greatest.** -/
theorem worth_le_greatest (h : layout.IsWellFormed) (hlengths : layout.HasLengths assignment)
    (hassignment : ∀ symbol, 0 ≤ assignment symbol) (kind : LengthKind) :
    layout.worth assignment kind ≤ layout.worth assignment .greatest := by
  induction layout with
  | empty => exact le_refl 0
  | field before length flags ih =>
    obtain ⟨hbefore, -⟩ := h
    obtain ⟨hothers, hlength⟩ := hlengths
    obtain ⟨hnonneg, hstring⟩ := le_length hlength
    refine add_le_add (ih hbefore hothers) ?_
    change _ ≤ textWorth assignment length
    split
    · exact hnonneg
    · split
      · rename_i hone
        refine hstring ?_
        cases kind with
        | greatest => exact absurd hone (by simp [LengthKind.countsOne])
        | least => exact hone
        | nonDefault => exact hone
      · exact le_refl _
  | group before inner array array2d variableLength dependent ih ihinner =>
    obtain ⟨hbefore, hinner, harray, harray2d⟩ := h
    obtain ⟨hothers, hothers'⟩ := hlengths
    have hcount := mul_nonneg (countWorth_nonneg harray hassignment)
      (countWorth_nonneg harray2d hassignment)
    refine add_le_add (ih hbefore hothers) ?_
    change _ ≤ countWorth assignment array * countWorth assignment array2d *
      worth assignment .greatest inner
    split
    · exact mul_nonneg hcount (worth_nonneg hinner hothers' hassignment .greatest)
    · exact mul_le_mul_of_nonneg_left (ihinner hinner hothers') hcount

/-- **The texts of the three lengths** are worth what the lengths are meant to be, and the greatest
length is the greatest of them. -/
theorem isWorth_texts (h : layout.IsWellFormed) (assignment : Symbol → ℤ) :
    IsWorth assignment .sum (layout.lengths ℚ).leastText (layout.worth assignment .least) ∧
      IsWorth assignment .sum (layout.lengths ℚ).greatestText
        (layout.worth assignment .greatest) ∧
      IsWorth assignment .sum (layout.lengths ℚ).nonDefaultText
        (layout.worth assignment .nonDefault) ∧
      ((∀ symbol, 0 ≤ assignment symbol) → layout.HasLengths assignment →
        layout.worth assignment .least ≤ layout.worth assignment .greatest ∧
          layout.worth assignment .nonDefault ≤ layout.worth assignment .greatest) := by
  refine ⟨(amountsTo h assignment .least).isWorth_text,
    (amountsTo h assignment .greatest).isWorth_text,
    (amountsTo h assignment .nonDefault).isWorth_text, fun hassignment hlengths => ?_⟩
  exact ⟨worth_le_greatest h hlengths hassignment .least,
    worth_le_greatest h hlengths hassignment .nonDefault⟩

/-- A field, another one that depends on it, and a two-dimensional array of groups with a string in
them. -/
theorem isWorth_texts_of_group :
    ∃ layout : Layout, layout.IsWellFormed ∧ (∀ symbol, 0 ≤ (fun _ => 5 : Symbol → ℤ) symbol) ∧
      layout.HasLengths (fun _ => 5) ∧
      IsWorth (fun _ => 5) .sum (layout.lengths ℚ).leastText 199 ∧
      IsWorth (fun _ => 5) .sum (layout.lengths ℚ).greatestText 273 ∧
      IsWorth (fun _ => 5) .sum (layout.lengths ℚ).nonDefaultText 198 ∧
      layout.worth (fun _ => 5) .least ≤ layout.worth (fun _ => 5) .greatest := by
  have hdigit : ∀ n : ℕ, IsWorth (fun _ => 5) .unary (Decimal.natText n) n := IsWorth.natText
  have hname : ∀ c, isNameStart c = true → IsWorth (fun _ => 5) .unary [c] (5 : ℤ) := fun c hc =>
    IsWorth.name ⟨c, [], rfl, hc, by simp⟩
  have hfour : IsWorth (fun _ => 5) .sum "4".toList 4 := by
    exact_mod_cast (hdigit 4).ofUnary.toSum
  have hdifference : IsWorth (fun _ => 5) .sum "3*N-1".toList 14 := by
    have := ((hdigit 3).ofUnary.mul (IsWorth.isWritten_sign (c := '*') rfl)
      (hname 'N' rfl)).toSum.sum (rfl : sumOperator? Token.minus = some .subtract)
        (IsWorth.isWritten_sign (c := '-') rfl) (hdigit 1).ofUnary
    norm_num [BinaryOperator.apply] at this
    exact this
  have hproduct : IsWorth (fun _ => 5) .sum "2*(N+1)".toList 12 := by
    have := ((hdigit 2).ofUnary.mul (IsWorth.isWritten_sign (c := '*') rfl)
      ((hname 'N' rfl).ofUnary.toSum.add (hdigit 1).ofUnary.toSum).group).toSum
    norm_num at this
    exact this
  have hstring : IsWorth (fun _ => 5) .sum "N".toList 5 := by
    exact_mod_cast (hname 'N' rfl).ofUnary.toSum
  have hthree : countWorth (fun _ => 5) "3".toList = 3 := by
    have : IsWorth (fun _ => 5) .sum (Text.trim "3".toList) (3 : ℕ) := (hdigit 3).ofUnary.toSum
    rw [countWorth, if_neg (by decide), this.textWorth_eq, Nat.cast_ofNat]
  have hfive : countWorth (fun _ => 5) "M".toList = 5 := by
    have : IsWorth (fun _ => 5) .sum (Text.trim "M".toList) (5 : ℤ) := (hname 'M' rfl).ofUnary.toSum
    rw [countWorth, if_neg (by decide), this.textWorth_eq, Int.cast_ofNat]
  let layout : Layout :=
    .group (.field (.field .empty "4".toList {}) "3*N-1".toList { dependent := true })
      (.field (.field .empty "2*(N+1)".toList {}) "N".toList { string := true, hasDefault := true })
      "3".toList "M".toList false false
  have hcount : IsCount "3".toList := by
    refine .inr (.inl ⟨by decide, fun d hd => ?_⟩)
    obtain rfl : d = '3' := List.mem_singleton.mp hd
    rfl
  have hlayout : layout.IsWellFormed :=
    ⟨⟨⟨trivial, hfour.isPolynomial (by decide)⟩, hdifference.isPolynomial (by decide)⟩,
      ⟨⟨trivial, hproduct.isPolynomial (by decide)⟩, hstring.isPolynomial (by decide)⟩,
      hcount, .inr (.inr ⟨'M', [], rfl, rfl, by simp⟩)⟩
  have hlengths : layout.HasLengths fun _ => 5 := by
    simp only [layout, HasLengths, hfour.textWorth_eq, hdifference.textWorth_eq,
      hproduct.textWorth_eq, hstring.textWorth_eq]
    norm_num
  have hworth : layout.worth (fun _ => 5) .least = 199 ∧ layout.worth (fun _ => 5) .greatest = 273 ∧
      layout.worth (fun _ => 5) .nonDefault = 198 := by
    simp only [layout, worth, LengthKind.omitsField, LengthKind.countsOne, LengthKind.omitsGroup,
      hfour.textWorth_eq, hdifference.textWorth_eq, hproduct.textWorth_eq, hstring.textWorth_eq,
      hthree, hfive]
    norm_num
  obtain ⟨hleast, hgreatest, hnonDefault, hle⟩ := isWorth_texts hlayout fun _ => 5
  obtain ⟨hleast', hgreatest', hnonDefault'⟩ := hworth
  exact ⟨layout, hlayout, fun _ => by norm_num, hlengths, hleast' ▸ hleast, hgreatest' ▸ hgreatest,
    hnonDefault' ▸ hnonDefault, (hle (fun _ => by norm_num) hlengths).1⟩

end Layout

end WireCodec
