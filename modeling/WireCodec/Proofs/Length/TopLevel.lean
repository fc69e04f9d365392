import WireCodec.Length.TopLevel

/-!
# What is at the top level of a text

Splitting a text, finding a separator in it and looking for operators all go through it in the same
way, counting parentheses. What they have in common is the list of the characters at the top level,
`WireCodec.topLevel`: a separator is found if it is in the list, and a text without it is one part.

A text whose parentheses are balanced from the left (`WireCodec.IsNested`) leaves the depth as it
is, and inside of parentheses it has nothing at the top level. So the top level of several such
texts in a row is that of each of them.
-/

namespace WireCodec

variable {depth : Int} {c separator : Char} {text first rest : List Char}

/-- **The characters at the top level of a text**, from depth `depth` on. -/
def topLevel (depth : Int) : List Char → List Char
  | [] => []
  | c :: text =>
    if depth = 0 then c :: topLevel (depthAfter depth c) text
    else topLevel (depthAfter depth c) text

/-- The depth behind a text, from the depth before it. -/
def depthBehind (depth : Int) (text : List Char) : Int :=
  text.foldl depthAfter depth

@[simp] theorem depthBehind_nil : depthBehind depth [] = depth := rfl

@[simp] theorem depthBehind_cons :
    depthBehind depth (c :: text) = depthBehind (depthAfter depth c) text := rfl

theorem depthBehind_append :
    depthBehind depth (first ++ rest) = depthBehind (depthBehind depth first) rest :=
  List.foldl_append

theorem depthAfter_of_ne (hopening : c ≠ '(') (hclosing : c ≠ ')') :
    depthAfter depth c = depth := by
  unfold depthAfter
  split <;> first | rfl | exact absurd rfl ‹_›

@[simp] theorem topLevel_nil : topLevel depth [] = [] := rfl

theorem topLevel_zero_cons : topLevel 0 (c :: text) = c :: topLevel (depthAfter 0 c) text :=
  if_pos rfl

theorem topLevel_cons_of_ne (h : depth ≠ 0) :
    topLevel depth (c :: text) = topLevel (depthAfter depth c) text :=
  if_neg h

theorem topLevel_append :
    topLevel depth (first ++ rest) =
      topLevel depth first ++ topLevel (depthBehind depth first) rest := by
  induction first generalizing depth with
  | nil => rfl
  | cons c first ih =>
    by_cases h : depth = 0
    · subst h
      rw [List.cons_append, topLevel_zero_cons, topLevel_zero_cons, ih, List.cons_append,
        depthBehind_cons]
    · rw [List.cons_append, topLevel_cons_of_ne h, topLevel_cons_of_ne h, ih, depthBehind_cons]

theorem mem_topLevel_cons {c' : Char} (h : c' ∈ topLevel (depthAfter depth c) text) :
    c' ∈ topLevel depth (c :: text) := by
  unfold topLevel
  split
  · exact List.mem_cons_of_mem _ h
  · exact h

/-- A character is at the top level where the depth before it is zero. -/
theorem mem_topLevel_iff : c ∈ topLevel depth text ↔
    ∃ before behind, text = before ++ c :: behind ∧ depthBehind depth before = 0 := by
  constructor
  · intro h
    induction text generalizing depth with
    | nil => exact absurd h (by simp)
    | cons d text ih =>
      rw [topLevel] at h
      split at h
      · rename_i hdepth
        rcases List.mem_cons.mp h with rfl | h
        · exact ⟨[], text, rfl, hdepth⟩
        · obtain ⟨before, behind, rfl, hbefore⟩ := ih h
          exact ⟨d :: before, behind, rfl, hbefore⟩
      · obtain ⟨before, behind, rfl, hbefore⟩ := ih h
        exact ⟨d :: before, behind, rfl, hbefore⟩
  · rintro ⟨before, behind, rfl, hbefore⟩
    rw [topLevel_append, hbefore, topLevel_zero_cons]
    simp

/-! ### Finding and splitting -/

theorem findFrom?_eq_none (h : separator ∉ topLevel depth text) :
    findFrom? separator depth text = none := by
  induction text generalizing depth with
  | nil => rfl
  | cons c text ih =>
    by_cases hdepth : depth = 0
    · subst hdepth
      rw [topLevel_zero_cons, List.mem_cons, not_or] at h
      rw [findFrom?, if_neg (fun hc => h.1 hc.1.symm), ih h.2, Option.map_none]
    · rw [topLevel_cons_of_ne hdepth] at h
      rw [findFrom?, if_neg (fun hc => hdepth hc.2), ih h, Option.map_none]

/-- A separator behind a text without one at its top level is the first one. -/
theorem findFrom?_append (hdepth : depthBehind depth first = 0)
    (h : separator ∉ topLevel depth first) :
    findFrom? separator depth (first ++ separator :: rest) = some first.length := by
  induction first generalizing depth with
  | nil =>
    obtain rfl : depth = 0 := hdepth
    simp [findFrom?]
  | cons c first ih =>
    have hne : ¬(c = separator ∧ depth = 0) := by
      rintro ⟨rfl, rfl⟩
      exact h (by simp [topLevel_zero_cons])
    rw [List.cons_append, findFrom?, if_neg hne, ih hdepth fun hmem => h (mem_topLevel_cons hmem),
      Option.map_some, List.length_cons]

/-- A text without a separator at its top level is one part. -/
theorem splitFrom_eq_singleton (h : separator ∉ topLevel depth text) :
    splitFrom separator depth text = [text] := by
  induction text generalizing depth with
  | nil => rfl
  | cons c text ih =>
    have hne : ¬(c = separator ∧ depth = 0) := by
      rintro ⟨rfl, rfl⟩
      exact h (by simp [topLevel_zero_cons])
    rw [splitFrom, if_neg hne, ih fun hmem => h (mem_topLevel_cons hmem)]
    rfl

/-- Text without a separator at its top level becomes a piece of the last part before it. -/
theorem splitFrom_append (hseparator : depthAfter 0 separator = 0) {parts : List (List Char)}
    {last : List Char} (hfirst : splitFrom separator depth first = parts ++ [last])
    (hrest : separator ∉ topLevel (depthBehind depth first) rest) :
    splitFrom separator depth (first ++ rest) = parts ++ [last ++ rest] := by
  induction first generalizing depth parts last with
  | nil =>
    obtain ⟨rfl, rfl⟩ : parts = [] ∧ last = [] := by
      cases parts <;> simp_all [splitFrom]
    exact splitFrom_eq_singleton hrest
  | cons c first ih =>
    rw [depthBehind_cons] at hrest
    by_cases hc : c = separator ∧ depth = 0
    · obtain ⟨rfl, rfl⟩ := hc
      rw [splitFrom, if_pos ⟨rfl, rfl⟩] at hfirst
      rw [hseparator] at hrest
      rw [List.cons_append, splitFrom, if_pos ⟨rfl, rfl⟩]
      -- The separator ends a part, so the last part is one of those behind it.
      cases parts with
      | nil => exact absurd (List.cons.inj hfirst).2 (splitFrom_ne_nil _ _ _)
      | cons part parts =>
        obtain ⟨rfl, htail⟩ := List.cons.inj hfirst
        rw [ih htail hrest]
        rfl
    · obtain ⟨p, ps, hp⟩ := List.exists_cons_of_ne_nil
        (splitFrom_ne_nil separator (depthAfter depth c) first)
      rw [splitFrom, if_neg hc, hp, List.modifyHead_cons] at hfirst
      rw [List.cons_append, splitFrom, if_neg hc]
      -- The character belongs to the first part, which may be the last one as well.
      cases parts with
      | nil =>
        obtain ⟨rfl, rfl⟩ := List.cons.inj hfirst
        rw [@ih _ [] p hp hrest]
        rfl
      | cons part parts =>
        obtain ⟨rfl, rfl⟩ := List.cons.inj hfirst
        rw [@ih _ (p :: parts) last hp hrest]
        rfl

/-- A separator at the top level ends a part. -/
theorem splitFrom_append_separator (hseparator : depthAfter 0 separator = 0)
    (hdepth : depthBehind depth first = 0) :
    splitFrom separator depth (first ++ separator :: rest) =
      splitFrom separator depth first ++ splitFrom separator 0 rest := by
  induction first generalizing depth with
  | nil =>
    obtain rfl : depth = 0 := hdepth
    simp [splitFrom]
  | cons c first ih =>
    rw [depthBehind_cons] at hdepth
    rw [List.cons_append, splitFrom, splitFrom]
    by_cases hc : c = separator ∧ depth = 0
    · obtain ⟨rfl, rfl⟩ := hc
      rw [if_pos ⟨rfl, rfl⟩, if_pos ⟨rfl, rfl⟩, ih (by rwa [hseparator] at hdepth)]
      rfl
    · obtain ⟨p, ps, hp⟩ := List.exists_cons_of_ne_nil
        (splitFrom_ne_nil separator (depthAfter depth c) first)
      rw [if_neg hc, if_neg hc, ih hdepth, hp]
      rfl

/-- **The parts make up the text**, with a separator behind each of them but the last. -/
theorem eq_flatten_of_splitFrom {parts : List (List Char)} {last : List Char}
    (h : splitFrom separator depth text = parts ++ [last]) :
    text = (parts.map (· ++ [separator])).flatten ++ last := by
  induction text generalizing depth parts last with
  | nil =>
    obtain ⟨rfl, rfl⟩ : parts = [] ∧ last = [] := by
      cases parts <;> simp_all [splitFrom]
    rfl
  | cons c text ih =>
    rw [splitFrom] at h
    split at h
    · rename_i hc
      obtain ⟨rfl, -⟩ := hc
      cases parts with
      | nil => exact absurd (List.cons.inj h).2 (splitFrom_ne_nil _ _ _)
      | cons part parts =>
        obtain ⟨rfl, htail⟩ := List.cons.inj h
        rw [ih htail]
        rfl
    · obtain ⟨p, ps, hp⟩ := List.exists_cons_of_ne_nil
        (splitFrom_ne_nil separator (depthAfter depth c) text)
      rw [hp, List.modifyHead_cons] at h
      -- The character belongs to the first part, which may be the last one as well.
      cases parts with
      | nil =>
        obtain ⟨rfl, rfl⟩ := List.cons.inj h
        exact congrArg (c :: ·) (@ih _ [] p hp)
      | cons part parts =>
        obtain ⟨rfl, rfl⟩ := List.cons.inj h
        exact congrArg (c :: ·) (@ih _ (p :: parts) last hp)

/-- What is before the last part ends in a separator. -/
theorem getLast?_flatten_separators (parts : List (List Char)) :
    ∀ c ∈ (parts.map (· ++ [separator])).flatten.getLast?, c = separator := by
  rcases List.eq_nil_or_concat parts with rfl | ⟨parts, part, rfl⟩
  · simp
  · simp

/-! ### Operators -/

/-- The operators that keep a text from being a plain product. -/
def isSumOperator (c : Char) : Bool :=
  c == '+' || c == '-' || c == '/' || c == '%'

theorem hasOperatorFrom_eq_any :
    hasOperatorFrom depth text = (topLevel depth text).any isSumOperator := by
  induction text generalizing depth with
  | nil => rfl
  | cons c text ih =>
    rw [hasOperatorFrom, ih]
    by_cases h : depth = 0
    · subst h
      rw [topLevel_zero_cons]
      rfl
    · rw [topLevel_cons_of_ne h, beq_false_of_ne h, Bool.false_and, Bool.false_or]

theorem hasTopLevelOperator_eq_false_iff :
    hasTopLevelOperator text = false ↔ ∀ c ∈ topLevel 0 text, isSumOperator c = false := by
  rw [hasTopLevelOperator, hasOperatorFrom_eq_any, List.any_eq_false]
  simp

/-- In a plain product, only a sign in front may be an operator. -/
theorem topLevel_of_isProduct (h : isProduct text = true) :
    (∀ c ∈ (topLevel 0 text).tail, isSumOperator c = false) ∧
      '/' ∉ topLevel 0 text ∧ '%' ∉ topLevel 0 text := by
  have hnone : ∀ {cs : List Char}, (∀ c ∈ cs, isSumOperator c = false) → '/' ∉ cs ∧ '%' ∉ cs :=
    fun hcs => ⟨fun hmem => absurd (hcs _ hmem) (by decide),
      fun hmem => absurd (hcs _ hmem) (by decide)⟩
  have hsign : ∀ {sign : Char} {text : List Char}, depthAfter 0 sign = 0 → sign ≠ '/' →
      sign ≠ '%' → (!hasTopLevelOperator text) = true →
      (∀ c ∈ (topLevel 0 (sign :: text)).tail, isSumOperator c = false) ∧
        '/' ∉ topLevel 0 (sign :: text) ∧ '%' ∉ topLevel 0 (sign :: text) := by
    intro sign text hdepth hslash hpercent h
    rw [Bool.not_eq_true', hasTopLevelOperator_eq_false_iff] at h
    rw [topLevel_zero_cons, hdepth, List.tail_cons]
    exact ⟨h, List.not_mem_cons_of_ne_of_not_mem hslash.symm (hnone h).1,
      List.not_mem_cons_of_ne_of_not_mem hpercent.symm (hnone h).2⟩
  unfold isProduct at h
  split at h
  · exact hsign rfl (by decide) (by decide) h
  · exact hsign rfl (by decide) (by decide) h
  · rw [Bool.not_eq_true', hasTopLevelOperator_eq_false_iff] at h
    exact ⟨fun c hc => h c (List.mem_of_mem_tail hc), hnone h⟩

/-! ### Nested texts -/

/-- **The parentheses of a text are balanced from the left.** It leaves every depth as it is, and
inside of parentheses nothing in it is at the top level. -/
structure IsNested (text : List Char) : Prop where
  /-- The depth behind the text is that before it. -/
  depthBehind : ∀ depth, depthBehind depth text = depth
  /-- Inside of parentheses there is nothing at the top level. -/
  inside : ∀ depth, 0 < depth → topLevel depth text = []

theorem isNested_nil : IsNested [] :=
  ⟨fun _ => rfl, fun _ _ => rfl⟩

theorem IsNested.append (h : IsNested first) (h' : IsNested rest) : IsNested (first ++ rest) := by
  refine ⟨fun depth => ?_, fun depth hdepth => ?_⟩
  · rw [depthBehind_append, h.depthBehind, h'.depthBehind]
  · rw [topLevel_append, h.depthBehind, h.inside depth hdepth, h'.inside depth hdepth,
      List.append_nil]

/-- A text without parentheses is nested. -/
theorem isNested_of_forall (h : ∀ c ∈ text, c ≠ '(' ∧ c ≠ ')') : IsNested text := by
  induction text with
  | nil => exact isNested_nil
  | cons c text ih =>
    obtain ⟨⟨hopening, hclosing⟩, hothers⟩ := List.forall_mem_cons.mp h
    have htext := ih hothers
    refine ⟨fun depth => ?_, fun depth hdepth => ?_⟩
    · rw [depthBehind_cons, depthAfter_of_ne hopening hclosing, htext.depthBehind]
    · rw [topLevel_cons_of_ne (by omega), depthAfter_of_ne hopening hclosing,
        htext.inside depth hdepth]

/-- A nested text in parentheses is nested, and only the opening one is at the top level. -/
theorem IsNested.group (h : IsNested text) :
    IsNested ('(' :: (text ++ [')'])) ∧ topLevel 0 ('(' :: (text ++ [')'])) = ['('] := by
  refine ⟨⟨fun depth => ?_, fun depth hdepth => ?_⟩, ?_⟩
  · rw [depthBehind_cons, depthBehind_append, h.depthBehind]
    simp [depthAfter]
  · have hinside : 0 < depthAfter depth '(' := by simp [depthAfter]; omega
    rw [topLevel_cons_of_ne (by omega), topLevel_append, h.depthBehind, h.inside _ hinside,
      topLevel_cons_of_ne (by omega)]
    rfl
  · rw [topLevel_zero_cons, topLevel_append, h.depthBehind, h.inside _ (by simp [depthAfter]),
      topLevel_cons_of_ne (by simp [depthAfter])]
    rfl

theorem IsNested.topLevel_append (h : IsNested first) :
    topLevel 0 (first ++ rest) = topLevel 0 first ++ topLevel 0 rest := by
  rw [WireCodec.topLevel_append, h.depthBehind]

end WireCodec
