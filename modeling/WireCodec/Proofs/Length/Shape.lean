import WireCodec.Proofs.Expression.Worth
import WireCodec.Proofs.Length.TopLevel
import WireCodec.Text.Blank

/-!
# The shape of a formula as a text

What the operations on lengths see of a formula are its parentheses, the operators at its top level
and the blanks at its ends. In a formula the parentheses are nested, and which operators may be at
the top level is a matter of its level (`WireCodec.Expression.Derives.shape`): a `+` is there in a
sum only, and a `*` in a sum or a product only. A `-` may be there at every level of unaries and
above, as a sign.

Blanks at the ends do not matter to a formula. They are those of its first and its last token, and
these may be written with other blanks around them (`WireCodec.Token.IsWritten.exists_core`).
-/

namespace WireCodec

open Token Expression

variable {α : Type} {spells : α → List Char → Prop} {a : Operand} {t : Token α} {level : Level}
  {text w : List Char} {c : Char}

/-! ### Operators at the top level -/

/-- **The operator may be at the top level** of a formula of this level. -/
def Expression.Level.Admits : Level → Char → Prop
  | .sum, _ => True
  | .product, c => c ≠ '+'
  | _, c => c ∉ ['+', '*', '/', '%']

theorem mem_of_mem_topLevel {depth : Int} (h : c ∈ topLevel depth text) : c ∈ text := by
  induction text generalizing depth with
  | nil => exact h
  | cons c' text ih =>
    unfold topLevel at h
    split at h
    · rcases List.mem_cons.mp h with rfl | h
      · exact List.mem_cons_self
      · exact List.mem_cons_of_mem _ (ih h)
    · exact List.mem_cons_of_mem _ (ih h)

/-- **A text has the shape of a level**: its parentheses are nested, and at its top level are only
operators of the level. -/
def HasShape (level : Level) (text : List Char) : Prop :=
  IsNested text ∧ ∀ c ∈ topLevel 0 text, level.Admits c

theorem HasShape.append {first rest : List Char} (h : HasShape level first)
    (h' : HasShape level rest) : HasShape level (first ++ rest) := by
  refine ⟨h.1.append h'.1, fun c hc => ?_⟩
  rw [h.1.topLevel_append, List.mem_append] at hc
  rcases hc with hc | hc
  · exact h.2 c hc
  · exact h'.2 c hc

/-- What is admitted in a unary is admitted everywhere. -/
theorem HasShape.of_unary (h : HasShape .unary text) : HasShape level text := by
  refine ⟨h.1, fun c hc => ?_⟩
  cases level with
  | sum => trivial
  | product => exact fun heq => h.2 c hc (by simp [heq])
  | _ => exact h.2 c hc

theorem hasShape_of_forall (h : ∀ c ∈ text, c ∉ ['(', ')', '+', '*', '/', '%']) :
    HasShape .unary text := by
  refine ⟨isNested_of_forall fun c hc => ?_, fun c hc => ?_⟩
  · have := h c hc
    simp only [List.mem_cons, not_or] at this
    exact ⟨this.1, this.2.1⟩
  · have := h c (mem_of_mem_topLevel hc)
    change c ∉ ['+', '*', '/', '%']
    simp only [List.mem_cons, not_or] at this ⊢
    exact this.2.2

theorem hasShape_blanks (h : ∀ c ∈ text, isBlank c = true) : HasShape .unary text := by
  refine hasShape_of_forall fun c hc hmem => ?_
  have hnone : ['(', ')', '+', '*', '/', '%'].any isBlank = false := by decide
  exact List.any_eq_false.mp hnone c hmem (h c hc)

theorem hasShape_group (h : IsNested text) : HasShape .unary ('(' :: (text ++ [')'])) := by
  refine ⟨h.group.1, fun c hc => ?_⟩
  rw [h.group.2, List.mem_singleton] at hc
  subst hc
  change '(' ∉ ['+', '*', '/', '%']
  decide

theorem hasShape_nameChars (h : ∀ c ∈ text, isNameChar c = true) : HasShape .unary text := by
  refine hasShape_of_forall fun c hc hmem => ?_
  have hnone : ['(', ')', '+', '*', '/', '%'].any isNameChar = false := by decide
  exact List.any_eq_false.mp hnone c hmem (h c hc)

theorem IsName.forall_isNameChar (h : IsName text) : ∀ c ∈ text, isNameChar c = true := by
  obtain ⟨c, tail, rfl, hc, htail⟩ := h
  intro d hd
  rcases List.mem_cons.mp hd with rfl | hd
  · exact Operand.isNameChar_of_isNameStart hc
  · exact htail d hd

theorem isNameChar_of_isHexDigit (h : isHexDigit c = true) : isNameChar c = true := by
  simp only [isHexDigit, isNameChar, Char.isAlphanum, Operand.isAlpha_iff_toNat,
    Char.isDigit_iff_toNat, Bool.or_eq_true, Bool.and_eq_true, decide_eq_true_eq, Char.le_def,
    UInt32.le_iff_toNat_le, Char.toNat_val, Char.reduceToNat] at h ⊢
  omega

theorem Operand.IsSpelled.hasShape (h : IsSpelled a w) : HasShape .unary w := by
  cases h with
  | decimal _ h => exact hasShape_nameChars fun d hd => isNameChar_of_isDigit (h d hd)
  | @hexadecimal mark digits hmark _ h =>
    refine hasShape_nameChars fun d hd => ?_
    rcases List.mem_cons.mp hd with rfl | hd
    · decide
    · rcases List.mem_cons.mp hd with rfl | hd
      · rcases hmark with rfl | rfl <;> decide
      · exact isNameChar_of_isHexDigit (h d hd)
  | name h => exact hasShape_nameChars h.forall_isNameChar
  | call h hbefore hinside =>
    exact (hasShape_nameChars h.forall_isNameChar).append
      ((hasShape_blanks hbefore).append (hasShape_group (hasShape_blanks hinside).1))

theorem hasShape_literal (h : IsWritten Operand.IsSpelled (.literal a) w) : HasShape .unary w := by
  cases h with
  | literal hbefore hw hafter =>
    exact (hasShape_blanks hbefore).append (hw.hasShape.append (hasShape_blanks hafter))
  | sign _ hc _ => exact absurd (ofChar?_eq_some_iff.mp hc) (by simp [signOf?])

/-- An operator is written with blanks around its character. -/
theorem exists_of_signOf? (h : IsWritten spells t w) (ht : signOf? t = some c) :
    ∃ before after, w = before ++ c :: after ∧ (∀ b ∈ before, isBlank b = true) ∧
      ∀ b ∈ after, isBlank b = true := by
  cases h with
  | literal => exact absurd ht (by simp [signOf?])
  | sign hbefore hc hafter =>
    rw [ofChar?_eq_some_iff.mp hc, Option.some.injEq] at ht
    exact ⟨_, _, by rw [ht], hbefore, hafter⟩

/-- An operator has the shape of every level that it is admitted in. -/
theorem hasShape_sign (h : IsWritten spells t w) (ht : signOf? t = some c)
    (hopening : c ≠ '(') (hclosing : c ≠ ')') (hadmits : level.Admits c) : HasShape level w := by
  obtain ⟨before, after, rfl, hbefore, hafter⟩ := exists_of_signOf? h ht
  have hc : HasShape level [c] := by
    refine ⟨isNested_of_forall fun d hd => ?_, fun d hd => ?_⟩
    · obtain rfl := List.mem_singleton.mp hd
      exact ⟨hopening, hclosing⟩
    · obtain rfl := List.mem_singleton.mp (mem_of_mem_topLevel hd)
      exact hadmits
  exact (hasShape_blanks hbefore).of_unary.append (hc.append (hasShape_blanks hafter).of_unary)

/-- A nested text in parentheses, with blanks around these. -/
theorem hasShape_parentheses {w' : List Char} (hw : IsWritten spells .opening w)
    (h : IsNested text) (hw' : IsWritten spells .closing w') :
    HasShape .unary (w ++ (text ++ w')) := by
  obtain ⟨before, after, rfl, hbefore, hafter⟩ := exists_of_signOf? hw rfl
  obtain ⟨before', after', rfl, hbefore', hafter'⟩ := exists_of_signOf? hw' rfl
  -- The blanks on the inner sides of the parentheses are text inside of them.
  have hinner : IsNested (after ++ (text ++ before')) :=
    (hasShape_blanks hafter).1.append (h.append (hasShape_blanks hbefore').1)
  have hshape := (hasShape_blanks hbefore).append
    ((hasShape_group hinner).append (hasShape_blanks hafter'))
  simpa only [List.append_assoc, List.cons_append, List.nil_append] using hshape

theorem exists_of_sumOperator? {op : BinaryOperator} (h : sumOperator? t = some op) :
    ∃ c, signOf? t = some c ∧ (c = '+' ∧ op = .add ∨ c = '-' ∧ op = .subtract) := by
  cases t <;> simp_all [sumOperator?, signOf?]

theorem exists_of_productOperator? {op : BinaryOperator} (h : productOperator? t = some op) :
    ∃ c, signOf? t = some c ∧
      (c = '*' ∧ op = .multiply ∨ c = '/' ∧ op = .divide ∨ c = '%' ∧ op = .remainder) := by
  cases t <;> simp_all [productOperator?, signOf?]

/-- **The shape of a formula** is that of its level. -/
theorem Expression.Derives.shape {e : Expression Operand}
    (h : Derives (IsWritten Operand.IsSpelled) level text e) : HasShape level text := by
  induction h with
  | literal hw => exact hasShape_literal hw
  | group hw h hw' ih => exact (hasShape_parentheses hw ih.1 hw').of_unary
  | power hl hw hr ihl ihr =>
    have hcaret : HasShape .unary _ :=
      hasShape_sign hw rfl (by decide) (by decide) (by simp [Level.Admits])
    exact ihl.append (hcaret.append ihr)
  | negate hw h ih =>
    have hminus : HasShape .unary _ :=
      hasShape_sign hw rfl (by decide) (by decide) (by simp [Level.Admits])
    exact hminus.append ih
  | @product left w right _ _ t op hl ht hw hr ihl ihr =>
    obtain ⟨c, hc, hop⟩ := exists_of_productOperator? ht
    have hsign : HasShape .product w := by
      rcases hop with ⟨rfl, -⟩ | ⟨rfl, -⟩ | ⟨rfl, -⟩ <;>
        exact hasShape_sign hw hc (by decide) (by decide) (by simp [Level.Admits])
    exact ihl.append (hsign.append ihr.of_unary)
  | @sum left w right _ _ t op hl ht hw hr ihl ihr =>
    obtain ⟨c, hc, hop⟩ := exists_of_sumOperator? ht
    have hsign : HasShape .sum w := by
      rcases hop with ⟨rfl, -⟩ | ⟨rfl, -⟩ <;>
        exact hasShape_sign hw hc (by decide) (by decide) trivial
    exact ihl.append (hsign.append ⟨ihr.1, fun c hc => trivial⟩)
  | ofPrimary h ih => exact ih
  | ofPower h ih => exact ih
  | ofUnary h ih => exact ih.of_unary
  | ofProduct h ih => exact ⟨ih.1, fun c hc => trivial⟩

/-! ### Blanks at the ends -/

theorem Text.isBlank_of_isBlank (h : Token.isBlank c = true) : Text.isBlank c = true := by
  simp only [Token.isBlank, Bool.or_eq_true, beq_iff_eq] at h
  rcases h with ((rfl | rfl) | rfl) | rfl <;> decide

/-- Characters of names are not blank. -/
theorem Text.isBlank_of_isNameChar (h : isNameChar c = true) : Text.isBlank c = false := by
  have hle : 48 ≤ c.val.toNat ∧ c.val.toNat ≤ 122 := by
    rw [isNameChar, Bool.or_eq_true, beq_iff_eq] at h
    rcases h with h | rfl
    · simp only [Char.isAlphanum, Operand.isAlpha_iff_toNat, Char.isDigit_iff_toNat,
        Bool.or_eq_true, Char.reduceToNat] at h
      rw [Char.toNat_val]
      omega
    · decide
  cases hblank : Text.isBlank c with
  | false => rfl
  | true =>
    simp only [Text.isBlank, Bool.or_eq_true, Bool.and_eq_true, decide_eq_true_eq, beq_iff_eq,
      Char.le_def, UInt32.le_iff_toNat_le, Char.ext_iff, ← UInt32.toNat_inj, Char.reduceVal,
      UInt32.reduceToNat] at hblank
    omega

theorem Text.isBlank_of_ofChar? (h : ofChar? c = some t) : Text.isBlank c = false := by
  rw [ofChar?_eq_some_iff] at h
  cases t <;> cases h <;> decide

/-- An operand ends with a character that is not blank. -/
theorem Operand.IsSpelled.exists_concat (h : IsSpelled a w) :
    ∃ init c, w = init ++ [c] ∧ Text.isBlank c = false := by
  have hnames : ∀ {w : List Char}, w ≠ [] → (∀ c ∈ w, isNameChar c = true) →
      ∃ init c, w = init ++ [c] ∧ Text.isBlank c = false := by
    intro w hne h
    refine ⟨w.dropLast, w.getLast hne, (List.dropLast_append_getLast hne).symm, ?_⟩
    exact Text.isBlank_of_isNameChar (h _ (List.getLast_mem hne))
  cases h with
  | decimal hne h => exact hnames hne fun d hd => isNameChar_of_isDigit (h d hd)
  | @hexadecimal mark digits hmark hne h =>
    obtain ⟨init, c, rfl, hc⟩ := hnames hne fun d hd => isNameChar_of_isHexDigit (h d hd)
    exact ⟨'0' :: mark :: init, c, rfl, hc⟩
  | name h => exact hnames (by obtain ⟨c, tail, rfl, -⟩ := h; simp) h.forall_isNameChar
  | @call name before inside h _ _ =>
    exact ⟨name ++ (before ++ '(' :: inside), ')', by simp, by decide⟩

/-- **Numbers neither start nor end with a blank.** -/
structure Token.IsSolid (spells : α → List Char → Prop) : Prop where
  /-- The first character of a number is not blank. -/
  exists_cons : ∀ {a w}, spells a w → ∃ c tail, w = c :: tail ∧ Text.isBlank c = false
  /-- The last character of a number is not blank. -/
  exists_concat : ∀ {a w}, spells a w → ∃ init c, w = init ++ [c] ∧ Text.isBlank c = false

theorem Operand.isSolid : IsSolid Operand.IsSpelled := by
  refine ⟨fun h => ?_, fun h => h.exists_concat⟩
  obtain ⟨c, tail, hcons, hc⟩ := h.exists_cons
  exact ⟨c, tail, hcons, Text.isBlank_of_isNameChar hc⟩

/-- **The core of a token**: what is left of it without the blanks around it. It neither starts nor
ends with a blank, and may have any blanks around it instead. -/
theorem Token.IsWritten.exists_core (hsolid : IsSolid spells) (h : IsWritten spells t w) :
    ∃ before core after, w = before ++ (core ++ after) ∧
      (∀ c ∈ before, isBlank c = true) ∧ (∀ c ∈ after, isBlank c = true) ∧
      (∃ c tail, core = c :: tail ∧ Text.isBlank c = false) ∧
      (∃ init c, core = init ++ [c] ∧ Text.isBlank c = false) ∧
      ∀ before' after', (∀ c ∈ before', isBlank c = true) → (∀ c ∈ after', isBlank c = true) →
        IsWritten spells t (before' ++ (core ++ after')) := by
  cases h with
  | @literal before w after a hbefore hw hafter =>
    exact ⟨before, w, after, rfl, hbefore, hafter, hsolid.exists_cons hw, hsolid.exists_concat hw,
      fun before' after' hbefore' hafter' => .literal hbefore' hw hafter'⟩
  | @sign before after c t hbefore hc hafter =>
    have hblank := Text.isBlank_of_ofChar? hc
    exact ⟨before, [c], after, rfl, hbefore, hafter, ⟨c, [], rfl, hblank⟩, ⟨[], c, rfl, hblank⟩,
      fun before' after' hbefore' hafter' => .sign hbefore' hc hafter'⟩

theorem Text.trimStart_append {before rest : List Char} (hbefore : ∀ b ∈ before, isBlank b = true)
    (hc : isBlank c = false) : trimStart (before ++ c :: rest) = c :: rest := by
  rw [trimStart, List.dropWhile_append_of_pos hbefore, List.dropWhile_cons_of_neg (by simp [hc])]

namespace Expression.Derives

variable {e : Expression α} (hsolid : IsSolid spells)
  (h : Derives (IsWritten spells) level text e)
include hsolid h

theorem ne_nil : text ≠ [] := by
  obtain ⟨t, w, tail, rfl, hw, -⟩ := h.exists_first
  obtain ⟨before, core, after, rfl, -, -, ⟨c, rest, rfl, -⟩, -⟩ := hw.exists_core hsolid
  simp

/-- Blanks before a formula do not matter. -/
theorem blanks_append {blanks : List Char} (hblanks : ∀ c ∈ blanks, isBlank c = true) :
    Derives (IsWritten spells) level (blanks ++ text) e := by
  obtain ⟨t, w, tail, rfl, hw, hrest⟩ := h.exists_first
  obtain ⟨before, core, after, rfl, hbefore, hafter, -, -, hcore⟩ := hw.exists_core hsolid
  have := hrest _ (hcore (blanks ++ before) after
    (fun c hc => (List.mem_append.mp hc).elim (hblanks c) (hbefore c)) hafter)
  simpa only [List.append_assoc] using this

/-- Blanks behind a formula do not matter. -/
theorem append_blanks {blanks : List Char} (hblanks : ∀ c ∈ blanks, isBlank c = true) :
    Derives (IsWritten spells) level (text ++ blanks) e := by
  obtain ⟨t, init, w, rfl, hw, hrest⟩ := h.exists_last
  obtain ⟨before, core, after, rfl, hbefore, hafter, -, -, hcore⟩ := hw.exists_core hsolid
  have := hrest _ (hcore before (after ++ blanks) hbefore
    (fun c hc => (List.mem_append.mp hc).elim (hafter c) (hblanks c)))
  simpa only [List.append_assoc] using this

theorem trimStart : Derives (IsWritten spells) level (Text.trimStart text) e := by
  obtain ⟨t, w, tail, rfl, hw, hrest⟩ := h.exists_first
  obtain ⟨before, core, after, rfl, hbefore, hafter, ⟨c, rest, rfl, hc⟩, -, hcore⟩ :=
    hw.exists_core hsolid
  have := hrest _ (hcore [] after (by simp) hafter)
  rw [List.append_assoc, List.append_assoc, List.cons_append,
    Text.trimStart_append (fun b hb => Text.isBlank_of_isBlank (hbefore b hb)) hc]
  simpa using this

/-- **A formula without the blanks at its ends** is the same formula. -/
theorem trim : Derives (IsWritten spells) level (Text.trim text) e := by
  -- The blanks at the start are gone; those at the end belong to the last token.
  obtain ⟨t, init, w, heq, hw, hrest⟩ := (h.trimStart hsolid).exists_last
  obtain ⟨before, core, after, rfl, hbefore, hafter, -, ⟨start, c, rfl, hc⟩, hcore⟩ :=
    hw.exists_core hsolid
  have := hrest _ (hcore before [] hbefore (by simp))
  rw [Text.trim, heq]
  simp only [List.reverse_append, List.reverse_cons, List.nil_append, List.append_assoc,
    List.cons_append]
  rw [Text.trimStart_append (fun b hb => Text.isBlank_of_isBlank (hafter b (by simpa using hb))) hc]
  simpa using this

end Expression.Derives

end WireCodec
