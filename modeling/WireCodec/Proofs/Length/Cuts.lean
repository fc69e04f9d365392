import WireCodec.Proofs.Length.TopLevel

/-!
# Cuts at the top level

A text is cut at its separators outside of parentheses. The parentheses are counted through the
whole text and need not be balanced: the count may be negative, and what it is at a place depends on
all that stands before. Each part is looked at by itself later on, counted from zero again.

That this makes no difference is what `WireCodec.IsCut` takes for the definition. A cut is made
where the count *of the part that ends there* is zero, so that the count of the whole text is the
count of the part, at each of its places. Then everything goes by induction on the cuts: the parts
make up the text (`WireCodec.IsCut.intercalate`), none of them can be cut once more
(`WireCodec.IsCut.isUncut`), and the first separator is where the first part ends
(`WireCodec.IsCut.findTopLevel?_eq`). Every text has such parts (`WireCodec.exists_isCut`), and they
are those that splitting gives (`WireCodec.IsCut.splitTopLevel_eq`).

A count that is kept in a word may become too large for it. No law of counting is needed above, so
that the cuts are taken with any rule for what becomes of a count then.
-/

namespace WireCodec

variable {wrap : Int → Int} {separator c : Char} {text part rest : List Char}
  {parts : List (List Char)}

/-! ### Counting parentheses -/

/-- **The count behind a character**, from the count before it. `wrap` says what is kept of a count:
all of it, as `id` has it, or what is left in a word. -/
def countAfter (wrap : Int → Int) (count : Int) : Char → Int
  | '(' => wrap (count + 1)
  | ')' => wrap (count - 1)
  | _ => count

/-- The count behind a text, from zero. -/
def countBehind (wrap : Int → Int) (text : List Char) : Int :=
  text.foldl (countAfter wrap) 0

theorem countBehind_concat :
    countBehind wrap (text ++ [c]) = countAfter wrap (countBehind wrap text) c := by
  rw [countBehind, List.foldl_append]
  rfl

/-- A character is one of the parentheses or changes no count. -/
@[elab_as_elim]
theorem parenthesisCases {motive : Char → Prop} (c : Char) (opening : motive '(')
    (closing : motive ')') (other : ∀ c, c ≠ '(' → c ≠ ')' → motive c) : motive c := by
  by_cases hopening : c = '('
  · exact hopening ▸ opening
  by_cases hclosing : c = ')'
  · exact hclosing ▸ closing
  exact other c hopening hclosing

theorem countAfter_of_ne {count : Int} (hopening : c ≠ '(') (hclosing : c ≠ ')') :
    countAfter wrap count c = count := by
  unfold countAfter
  split <;> first | rfl | exact absurd rfl ‹_›

/-- Kept as a whole, the count is the depth. -/
theorem countBehind_id : countBehind id text = depthBehind 0 text := by
  have hstep : ∀ (count : Int) (c : Char), countAfter id count c = depthAfter count c := by
    intro count c
    cases c using parenthesisCases with
    | opening => rfl
    | closing => rfl
    | other c hopening hclosing =>
      rw [countAfter_of_ne hopening hclosing, depthAfter_of_ne hopening hclosing]
  rw [countBehind, depthBehind, funext fun count => funext (hstep count)]

/-! ### Texts without a separator -/

/-- **No separator of the text is outside of parentheses**: none has a count of zero before it. -/
def IsUncut (wrap : Int → Int) (separator : Char) (text : List Char) : Prop :=
  ∀ before behind, text = before ++ separator :: behind → countBehind wrap before ≠ 0

theorem isUncut_nil : IsUncut wrap separator [] :=
  fun before behind h => absurd h (by simp)

/-- One more character is no separator outside of parentheses. -/
theorem IsUncut.concat (h : IsUncut wrap separator text)
    (hc : ¬(c = separator ∧ countBehind wrap text = 0)) : IsUncut wrap separator (text ++ [c]) := by
  intro before behind heq hcount
  rcases List.eq_nil_or_concat behind with rfl | ⟨behind, d, rfl⟩
  · obtain ⟨rfl, hseparator⟩ := List.append_inj' heq rfl
    exact hc ⟨(List.cons.inj hseparator).1, hcount⟩
  · have heq' : text ++ [c] = (before ++ separator :: behind) ++ [d] := by simpa using heq
    exact h before behind (List.append_inj' heq' rfl).1 hcount

theorem IsUncut.of_append (h : IsUncut wrap separator (text ++ rest)) :
    IsUncut wrap separator text := by
  intro before behind heq
  exact h before (behind ++ rest) (by rw [heq, List.append_assoc, List.cons_append])

/-- With the whole count, these are the texts without a separator at their top level. -/
theorem isUncut_id_iff : IsUncut id separator text ↔ separator ∉ topLevel 0 text := by
  simp only [mem_topLevel_iff, IsUncut, countBehind_id, not_exists, not_and, Ne]

/-! ### Cuts -/

/-- **The parts of a text between its separators.** -/
inductive IsCut (wrap : Int → Int) (separator : Char) : List Char → List (List Char) → Prop
  /-- A text without a separator outside of parentheses is one part. -/
  | last {part : List Char} : IsUncut wrap separator part → IsCut wrap separator part [part]
  /-- The first separator outside of parentheses ends the first part. -/
  | cut {part text : List Char} {parts : List (List Char)} : IsUncut wrap separator part →
      countBehind wrap part = 0 → IsCut wrap separator text parts →
      IsCut wrap separator (part ++ separator :: text) (part :: parts)

/-- The parts of a text behind the start of its first one. -/
theorem IsUncut.exists_isCut_append (h : IsUncut wrap separator part) (text : List Char) :
    ∃ parts, IsCut wrap separator (part ++ text) parts := by
  induction text generalizing part with
  | nil => exact ⟨[part], by rw [List.append_nil]; exact .last h⟩
  | cons c text ih =>
    by_cases hc : c = separator ∧ countBehind wrap part = 0
    · obtain ⟨rfl, hcount⟩ := hc
      obtain ⟨parts, hparts⟩ := ih isUncut_nil
      exact ⟨part :: parts, .cut h hcount hparts⟩
    · obtain ⟨parts, hparts⟩ := ih (h.concat hc)
      exact ⟨parts, by rwa [List.append_assoc] at hparts⟩

/-- **Every text can be cut**, balanced or not. -/
theorem exists_isCut (wrap : Int → Int) (separator : Char) (text : List Char) :
    ∃ parts, IsCut wrap separator text parts :=
  isUncut_nil.exists_isCut_append text

/-- The part of a text that ends at its first separator. -/
def endedPart? : List (List Char) → Option (List Char)
  | part :: _ :: _ => some part
  | _ => none

theorem endedPart?_cons (h : parts ≠ []) : endedPart? (part :: parts) = some part := by
  obtain ⟨next, others, rfl⟩ := List.exists_cons_of_ne_nil h
  rfl

namespace IsCut

theorem ne_nil (h : IsCut wrap separator text parts) : parts ≠ [] := by
  cases h <;> simp

/-- **Joined by separators, the parts are the text.** -/
theorem intercalate (h : IsCut wrap separator text parts) :
    [separator].intercalate parts = text := by
  induction h with
  | last => simp
  | cut _ _ hparts ih =>
    rw [List.intercalate_cons_of_ne_nil hparts.ne_nil, ih]
    simp

/-- **No part can be cut once more**, counted from zero. -/
theorem isUncut (h : IsCut wrap separator text parts) :
    ∀ part ∈ parts, IsUncut wrap separator part := by
  induction h with
  | last hpart => simpa using hpart
  | cut hpart _ _ ih => exact List.forall_mem_cons.mpr ⟨hpart, ih⟩

/-- **Splitting a text gives its parts.** -/
theorem splitTopLevel_eq (h : IsCut id separator text parts)
    (hseparator : depthAfter 0 separator = 0) : splitTopLevel separator text = parts := by
  induction h with
  | last hpart => exact splitFrom_eq_singleton (isUncut_id_iff.mp hpart)
  | @cut part text parts hpart hcount _ ih =>
    rw [countBehind_id] at hcount
    rw [splitTopLevel, splitFrom_append_separator hseparator hcount,
      splitFrom_eq_singleton (isUncut_id_iff.mp hpart), ← splitTopLevel, ih]
    rfl

/-- **Each separator at the top level is a cut**, and nothing else is. -/
theorem length_eq (h : IsCut id separator text parts) (hseparator : depthAfter 0 separator = 0) :
    parts.length = (topLevel 0 text).count separator + 1 := by
  induction h with
  | last hpart => rw [List.count_eq_zero.mpr (isUncut_id_iff.mp hpart), List.length_singleton]
  | @cut part text parts hpart hcount _ ih =>
    rw [countBehind_id] at hcount
    rw [topLevel_append, hcount, topLevel_zero_cons, hseparator, List.count_append,
      List.count_eq_zero.mpr (isUncut_id_iff.mp hpart), List.count_cons_self, List.length_cons, ih,
      Nat.zero_add]

/-- **Finding the first separator gives the end of the first part**, if there is one more. -/
theorem findTopLevel?_eq (h : IsCut id separator text parts) :
    findTopLevel? separator text = (endedPart? parts).map List.length := by
  cases h with
  | last hpart =>
    rw [findTopLevel?, findFrom?_eq_none (isUncut_id_iff.mp hpart)]
    rfl
  | cut hpart hcount hparts =>
    rw [countBehind_id] at hcount
    rw [findTopLevel?, findFrom?_append hcount (isUncut_id_iff.mp hpart),
      endedPart?_cons hparts.ne_nil, Option.map_some]

/-- There is one part if none ends at a separator. -/
theorem exists_singleton_iff (h : IsCut wrap separator text parts) :
    (∃ part, parts = [part]) ↔ endedPart? parts = none := by
  cases h with
  | last => simp [endedPart?]
  | cut _ _ hparts =>
    rw [endedPart?_cons hparts.ne_nil]
    simp [hparts.ne_nil]

/-- The part that ends at the first separator is what the text starts with. -/
theorem of_endedPart? (h : IsCut wrap separator text parts)
    (hpart : endedPart? parts = some part) :
    parts.head? = some part ∧ ∃ rest, text = part ++ separator :: rest := by
  cases h with
  | last => exact absurd hpart (by simp [endedPart?])
  | @cut first text parts _ _ hparts =>
    rw [endedPart?_cons hparts.ne_nil] at hpart
    obtain rfl := Option.some.inj hpart
    exact ⟨rfl, text, rfl⟩

end IsCut

end WireCodec
