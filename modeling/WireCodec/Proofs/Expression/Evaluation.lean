import WireCodec.Number.Binary64
import WireCodec.Expression.Value
import WireCodec.Proofs.Expression.Formula
import WireCodec.Proofs.Expression.Spelling

/-!
# Evaluation and the grammar of numeric expressions

A text is evaluated by cutting it into tokens, reading these as an expression and computing its
value. Here the three steps are put together and compared with the grammar
(`WireCodec.IsExpression`):

* the scanner and the reader find the expression that the grammar derives from a text, and only that
  one (`WireCodec.Expression.parse?_eq_some_iff`), so that the grammar is unambiguous;
* the value of an expression is that of its tree, unless one of its literals is too large; then the
  leftmost of them is named (`WireCodec.Expression.value_eq`).

Together this is what a text is evaluated to (`WireCodec.evaluate_eq`), in any type of numbers: what
sums, powers or decimals are in it does not matter.

The grammar does not ask for the longest literals. It need not, as no two literals stand side by
side: what is behind a literal in a derived text cannot be a part of it. So the literals of the tree
are those of the text, from left to right, and each is the longest that can be found at its place
(`WireCodec.HasLiterals`).
-/

namespace WireCodec

open Token

/-- The text of a literal that does not fit into a word. -/
def Literal.tooLarge? : Literal → Option (List Char)
  | hexadecimal text => if hexLiteralValue text < 2 ^ 64 then none else some text
  | decimal _ => none

/-- The number that a literal stands for, whatever its size. -/
def Literal.number {α : Type} [Number α] : Literal → α
  | hexadecimal text => Number.ofInt (hexLiteralValue text)
  | decimal d => Number.ofDecimal d

/-- **The text is a numeric expression**, namely this one. -/
def IsExpression (text : List Char) (e : Expression Literal) : Prop :=
  Expression.Derives (IsWritten Literal.IsSpelled) .sum text e

/-- **The literals of a text**, from left to right, with nothing but blanks, operators and
parentheses between them. Each is the longest literal that the text has at its place. -/
inductive HasLiterals : List Char → List Literal → Prop
  /-- There are none in the empty text. -/
  | nil : HasLiterals [] []
  /-- A blank belongs to no literal. -/
  | blank {c : Char} {text : List Char} {literals : List Literal} (hc : isBlank c = true)
      (h : HasLiterals text literals) : HasLiterals (c :: text) literals
  /-- An operator or a parenthesis belongs to no literal. -/
  | sign {c : Char} {t : Token Literal} {text : List Char} {literals : List Literal}
      (hc : ofChar? c = some t) (h : HasLiterals text literals) : HasLiterals (c :: text) literals
  /-- The longest literal that the text starts with. -/
  | literal {l : Literal} {w rest : List Char} {literals : List Literal} (hw : l.IsSpelled w)
      (hlongest : ∀ l' w', Literal.IsSpelled l' w' → w' <+: w ++ rest → w'.length ≤ w.length)
      (h : HasLiterals rest literals) : HasLiterals (w ++ rest) (l :: literals)

/-! ### Texts for lists of tokens -/

namespace Token

variable {α σ : Type} {written : Token α → List σ → Prop} {t : Token α} {ts ts' : List (Token α)}

/-- The number that a token is. -/
def number? : Token α → Option α
  | literal a => some a
  | _ => none

/-- **The tokens are written one after another** in a list. -/
def AreWritten (written : Token α → List σ → Prop) : List (Token α) → List σ → Prop
  | [], text => text = []
  | t :: ts, text => ∃ w rest, text = w ++ rest ∧ written t w ∧ AreWritten written ts rest

theorem areWritten_singleton {text : List σ} : AreWritten written [t] text ↔ written t text := by
  constructor
  · rintro ⟨w, rest, rfl, hw, rfl⟩
    rwa [List.append_nil]
  · intro h
    exact ⟨text, [], (List.append_nil _).symm, h, rfl⟩

theorem areWritten_append {text : List σ} : AreWritten written (ts ++ ts') text ↔
    ∃ first rest, text = first ++ rest ∧ AreWritten written ts first ∧
      AreWritten written ts' rest := by
  induction ts generalizing text with
  | nil =>
    constructor
    · intro h
      exact ⟨[], text, rfl, rfl, h⟩
    · rintro ⟨first, rest, rfl, rfl, h⟩
      exact h
  | cons t ts ih =>
    constructor
    · rintro ⟨w, behind, rfl, hw, h⟩
      obtain ⟨first, rest, rfl, hfirst, hrest⟩ := ih.mp h
      exact ⟨w ++ first, rest, (List.append_assoc ..).symm, ⟨w, first, rfl, hw, hfirst⟩, hrest⟩
    · rintro ⟨_, rest, rfl, ⟨w, first, rfl, hw, hfirst⟩, hrest⟩
      exact ⟨w, first ++ rest, List.append_assoc .., hw, ih.mpr ⟨first, rest, rfl, hfirst, hrest⟩⟩

end Token

namespace Expression

variable {α σ : Type} {written : Token α → List σ → Prop} {level : Level} {ts : List (Token α)}
  {e : Expression α}

/-- **An expression that is derived from tokens** is derived from every text of them. -/
theorem Derives.of_areWritten (h : Derives IsAlone level ts e) {text : List σ}
    (hwritten : AreWritten written ts text) : Derives written level text e := by
  induction h generalizing text with
  | literal hw =>
    obtain rfl := hw
    exact .literal (areWritten_singleton.mp hwritten)
  | group hw h hw' ih =>
    obtain rfl := hw
    obtain rfl := hw'
    obtain ⟨w, _, rfl, hopening, hrest⟩ := areWritten_append.mp hwritten
    obtain ⟨inside, w', rfl, hinside, hclosing⟩ := areWritten_append.mp hrest
    exact .group (areWritten_singleton.mp hopening) (ih hinside) (areWritten_singleton.mp hclosing)
  | power hl hw hr ihl ihr =>
    obtain rfl := hw
    obtain ⟨left, _, rfl, hleft, hrest⟩ := areWritten_append.mp hwritten
    obtain ⟨w, right, rfl, hcaret, hright⟩ := areWritten_append.mp hrest
    exact .power (ihl hleft) (areWritten_singleton.mp hcaret) (ihr hright)
  | negate hw h ih =>
    obtain rfl := hw
    obtain ⟨w, rest, rfl, hminus, hrest⟩ := areWritten_append.mp hwritten
    exact .negate (areWritten_singleton.mp hminus) (ih hrest)
  | product hl ht hw hr ihl ihr =>
    obtain rfl := hw
    obtain ⟨left, _, rfl, hleft, hrest⟩ := areWritten_append.mp hwritten
    obtain ⟨w, right, rfl, hsign, hright⟩ := areWritten_append.mp hrest
    exact .product (ihl hleft) ht (areWritten_singleton.mp hsign) (ihr hright)
  | sum hl ht hw hr ihl ihr =>
    obtain rfl := hw
    obtain ⟨left, _, rfl, hleft, hrest⟩ := areWritten_append.mp hwritten
    obtain ⟨w, right, rfl, hsign, hright⟩ := areWritten_append.mp hrest
    exact .sum (ihl hleft) ht (areWritten_singleton.mp hsign) (ihr hright)
  | ofPrimary h ih => exact .ofPrimary (ih hwritten)
  | ofPower h ih => exact .ofPower (ih hwritten)
  | ofUnary h ih => exact .ofUnary (ih hwritten)
  | ofProduct h ih => exact .ofProduct (ih hwritten)

end Expression

/-! ### What the scanner has read -/

namespace Token

variable {α : Type} {number? : List Char → Option (α × List Char)} {spells : α → List Char → Prop}
  {t : Token α} {ts : List (Token α)} {text w blanks : List Char}

/-- **A reader of numbers finds what is written**: the text that it takes away is one for the
number. -/
def Finds (number? : List Char → Option (α × List Char)) (spells : α → List Char → Prop) : Prop :=
  ∀ text a rest, number? text = some (a, rest) → ∃ w, text = w ++ rest ∧ spells a w

theorem IsWritten.blanks_append (h : IsWritten spells t w)
    (hblanks : ∀ c ∈ blanks, isBlank c = true) : IsWritten spells t (blanks ++ w) := by
  cases h with
  | literal hbefore hw hafter =>
    rw [← List.append_assoc]
    exact .literal (List.forall_mem_append.mpr ⟨hblanks, hbefore⟩) hw hafter
  | sign hbefore hc hafter =>
    rw [← List.append_assoc]
    exact .sign (List.forall_mem_append.mpr ⟨hblanks, hbefore⟩) hc hafter

/-- **Induction on a text that is scanned**: it is empty, or starts with a blank, with the sign of a
token or with a number. -/
@[elab_as_elim]
theorem scanWith?_induction {motive : List Char → List (Token α) → Prop}
    (hshortens : Shortens number?) (nil : motive [] [])
    (blank : ∀ c text ts, isBlank c = true → motive text ts → motive (c :: text) ts)
    (sign : ∀ c t text ts, ofChar? c = some t → motive text ts → motive (c :: text) (t :: ts))
    (number : ∀ text a rest ts, number? text = some (a, rest) → motive rest ts →
      motive text (.literal a :: ts))
    (h : scanWith? number? text = some ts) : motive text ts := by
  -- The induction is on the length of the text, as a number takes several characters away.
  obtain ⟨n, hn⟩ : ∃ n, text.length = n := ⟨_, rfl⟩
  induction n using Nat.strongRecOn generalizing text ts with
  | _ n ih =>
    cases text with
    | nil =>
      obtain rfl : [] = ts := by simpa using h
      exact nil
    | cons c text =>
      have hlt : text.length < n := by simp at hn; omega
      cases hblank : isBlank c with
      | true =>
        rw [scanWith?_blank hblank] at h
        exact blank c text ts hblank (ih _ hlt h rfl)
      | false =>
        cases hc : (ofChar? c : Option (Token α)) with
        | some t =>
          rw [scanWith?_sign hc] at h
          obtain ⟨ts, hscan, rfl⟩ := Option.map_eq_some_iff.mp h
          exact sign c t text ts hc (ih _ hlt hscan rfl)
        | none =>
          rw [scanWith?_number hshortens hblank hc] at h
          obtain ⟨⟨a, behind⟩, hnumber, hbehind⟩ := Option.bind_eq_some_iff.mp h
          obtain ⟨ts, hscan, rfl⟩ := Option.map_eq_some_iff.mp hbehind
          have hshort := hshortens _ _ _ hnumber
          exact number _ a behind ts hnumber
            (ih behind.length (by simp at hn hshort; omega) hscan rfl)

/-- **A text that is scanned** is one of the tokens that are found, behind some blanks. -/
theorem exists_areWritten (hshortens : Shortens number?) (hfinds : Finds number? spells)
    (h : scanWith? number? text = some ts) :
    ∃ blanks rest, text = blanks ++ rest ∧ (∀ c ∈ blanks, isBlank c = true) ∧
      AreWritten (IsWritten spells) ts rest := by
  have hnone : ∀ c ∈ ([] : List Char), isBlank c = true := by simp
  refine scanWith?_induction hshortens ⟨[], [], rfl, hnone, rfl⟩ ?_ ?_ ?_ h
  · rintro c text ts hblank ⟨blanks, rest, rfl, hblanks, hrest⟩
    exact ⟨c :: blanks, rest, rfl, List.forall_mem_cons.mpr ⟨hblank, hblanks⟩, hrest⟩
  · rintro c t text ts hc ⟨blanks, rest, rfl, hblanks, hrest⟩
    exact ⟨[], c :: (blanks ++ rest), rfl, hnone, c :: blanks, rest, rfl, .sign hnone hc hblanks,
      hrest⟩
  · rintro text a _ ts hnumber ⟨blanks, rest, rfl, hblanks, hrest⟩
    obtain ⟨w, rfl, hw⟩ := hfinds _ _ _ hnumber
    exact ⟨[], w ++ (blanks ++ rest), rfl, hnone, w ++ blanks, rest, (List.append_assoc ..).symm,
      .literal hnone hw hblanks, hrest⟩

/-- The blanks before the first token belong to it. -/
theorem areWritten_of_scanWith? (hshortens : Shortens number?) (hfinds : Finds number? spells)
    (hne : ts ≠ []) (h : scanWith? number? text = some ts) :
    AreWritten (IsWritten spells) ts text := by
  obtain ⟨blanks, rest, rfl, hblanks, hrest⟩ := exists_areWritten hshortens hfinds h
  cases ts with
  | nil => exact absurd rfl hne
  | cons t ts =>
    obtain ⟨w, behind, rfl, hw, hbehind⟩ := hrest
    exact ⟨blanks ++ w, behind, (List.append_assoc ..).symm, hw.blanks_append hblanks, hbehind⟩

/-- **The numbers among the tokens** that are scanned are the literals of the text. -/
theorem hasLiterals_of_scanWith? {ts : List (Token Literal)}
    (h : scanWith? literal? text = some ts) : HasLiterals text (ts.filterMap Token.number?) := by
  refine scanWith?_induction shortens_literal? .nil (fun _ _ _ => .blank) ?_ ?_ h
  · intro c t text ts hc hrest
    have hnone : t.number? = none := by
      rw [ofChar?_eq_some_iff] at hc
      cases t <;> cases hc <;> rfl
    rw [List.filterMap_cons_none hnone]
    exact .sign hc hrest
  · intro text l rest ts hliteral hrest
    obtain ⟨w, rfl, hw⟩ := exists_of_literal? hliteral
    refine .literal hw ?_ hrest
    rintro l' w' hw' ⟨more, hmore⟩
    -- The reader leaves no more behind its literal than there is behind any other.
    rw [← hmore] at hliteral
    have hle := length_le_of_literal? hw' hliteral
    have hlength := congrArg List.length hmore
    rw [List.length_append, List.length_append] at hlength
    omega

end Token

/-! ### The reader and the grammar -/

/-- A literal starts with a digit or a point. -/
theorem Literal.IsSpelled.exists_cons {l : Literal} {w : List Char} (h : l.IsSpelled w) :
    ∃ c tail, w = c :: tail ∧ (c.isDigit = true ∨ c = '.') := by
  cases h with
  | hexadecimal => exact ⟨_, _, rfl, .inl (by decide)⟩
  | decimal hmantissa hpower =>
    cases hmantissa with
    | integer hne h | point hne h =>
      obtain ⟨d, digits, rfl⟩ := List.exists_cons_of_ne_nil hne
      exact ⟨_, _, rfl, .inl (h d List.mem_cons_self)⟩
    | fraction => exact ⟨_, _, rfl, .inr rfl⟩

/-- **The reader of literals agrees with the way they are written.** -/
theorem Literal.agrees_literal? : Agrees Token.literal? some Literal.IsSpelled := by
  refine ⟨shortens_literal?, fun l w h => ?_, fun l w rest h hrest => ?_⟩
  · obtain ⟨c, tail, rfl, hc | rfl⟩ := h.exists_cons
    · have hname := Operand.isNameChar_of_isDigit hc
      exact ⟨c, tail, rfl, Operand.isBlank_of_isNameChar hname, Operand.ofChar?_of_isNameChar hname⟩
    · exact ⟨'.', tail, rfl, by decide, rfl⟩
  · exact literal?_append h hrest

namespace Expression

variable {text : List Char} {e : Expression Literal}

/-- **A text is read as an expression exactly if the grammar derives that expression.** -/
theorem parse?_eq_some_iff : parse? text = some e ↔ IsExpression text e := by
  constructor
  · intro h
    obtain ⟨ts, hscan, htokens⟩ := Option.bind_eq_some_iff.mp h
    rw [ofTokens?_eq_some_iff] at htokens
    have hne : ts ≠ [] := List.ne_nil_of_length_pos (length_pos_of_derives htokens)
    exact htokens.of_areWritten
      (areWritten_of_scanWith? shortens_literal? (fun _ _ _ => exists_of_literal?) hne hscan)
  · intro h
    obtain ⟨ts, htokens, hscans⟩ := Derives.exists_tokens Literal.agrees_literal? h
    have hscan := hscans [] isClosed_nil
    rw [List.append_nil, mapM_map?_some] at hscan
    have hscan' : scan? text = some ts := by simpa [scan?] using hscan
    rw [parse?, hscan', Option.bind_some, ofTokens?_eq_some_iff.mpr htokens]

/-! ### The value of an expression -/

variable {α β : Type}

/-- **The numbers of an expression**, from left to right. -/
def literals : Expression β → List β
  | literal a => [a]
  | negate e => e.literals
  | binary _ left right => left.literals ++ right.literals

/-- **The numbers stand in the expression as in the tokens**: in the same order. -/
theorem Derives.filterMap_number? {level : Level} {ts : List (Token β)} {e : Expression β}
    (h : Derives IsAlone level ts e) : ts.filterMap Token.number? = e.literals := by
  induction h with
  | literal hw =>
    obtain rfl := hw
    rfl
  | group hw h hw' ih =>
    obtain rfl := hw
    obtain rfl := hw'
    rw [List.singleton_append, List.filterMap_cons_none rfl, List.filterMap_append, ih]
    exact List.append_nil _
  | power hl hw hr ihl ihr =>
    obtain rfl := hw
    rw [List.filterMap_append, List.singleton_append, List.filterMap_cons_none rfl, ihl, ihr]
    rfl
  | negate hw h ih =>
    obtain rfl := hw
    rw [List.singleton_append, List.filterMap_cons_none rfl, ih]
    rfl
  | @product _ _ _ _ _ t op hl ht hw hr ihl ihr =>
    obtain rfl := hw
    have hnone : t.number? = none := by cases t <;> simp_all [productOperator?, Token.number?]
    rw [List.filterMap_append, List.singleton_append, List.filterMap_cons_none hnone, ihl, ihr]
    rfl
  | @sum _ _ _ _ _ t op hl ht hw hr ihl ihr =>
    obtain rfl := hw
    have hnone : t.number? = none := by cases t <;> simp_all [sumOperator?, Token.number?]
    rw [List.filterMap_append, List.singleton_append, List.filterMap_cons_none hnone, ihl, ihr]
    rfl
  | ofPrimary h ih => exact ih
  | ofPower h ih => exact ih
  | ofUnary h ih => exact ih
  | ofProduct h ih => exact ih

/-- **The numbers of an expression are the literals of its text.** -/
theorem hasLiterals_of_isExpression (h : IsExpression text e) : HasLiterals text e.literals := by
  obtain ⟨ts, hscan, htokens⟩ := Option.bind_eq_some_iff.mp (parse?_eq_some_iff.mpr h)
  rw [ofTokens?_eq_some_iff] at htokens
  rw [← htokens.filterMap_number?]
  exact hasLiterals_of_scanWith? hscan

variable [Number α]

/-- **The number that a tree stands for**, given those of its literals. -/
def treeValue (number : β → α) : Expression β → α
  | literal a => number a
  | negate e => -e.treeValue number
  | binary operator left right => operator.apply (left.treeValue number) (right.treeValue number)

/-- **An expression is evaluated to the value of its tree**, unless one of its literals is too
large: then the leftmost of them is named. -/
theorem value_eq (e : Expression Literal) :
    (e.value : Except EvaluationError α) =
      match e.literals.findSome? Literal.tooLarge? with
      | some text => .error (.literalTooLarge text)
      | none => .ok (e.treeValue Literal.number) := by
  induction e with
  | literal l =>
    cases l with
    | decimal d => rfl
    | hexadecimal text =>
      by_cases hlt : hexLiteralValue text < 2 ^ 64
      · simp [value, Literal.value, literals, Literal.tooLarge?, treeValue, Literal.number, hlt]
      · simp [value, Literal.value, literals, Literal.tooLarge?, hlt]
  | negate e ih =>
    rw [value, ih, literals]
    cases e.literals.findSome? Literal.tooLarge? <;> rfl
  | binary op left right ihl ihr =>
    rw [value, ihl, ihr, literals, List.findSome?_append]
    cases left.literals.findSome? Literal.tooLarge? with
    | some text => rfl
    | none => cases right.literals.findSome? Literal.tooLarge? <;> rfl

end Expression

/-- **What a text is evaluated to.** It is not an expression exactly if the grammar does not derive
it; otherwise the leftmost literal that is too large is named, and if there is none, it is worth the
value of its tree, which has to be finite. The literals of the tree are those of the text, in their
order, and each is as long as it can be. -/
theorem evaluate_eq {α : Type} [Number α] (text : List Char) :
    ((evaluate text : Except EvaluationError α) = .error .notAnExpression ↔
        ¬∃ e, IsExpression text e) ∧
      ∀ e, IsExpression text e → HasLiterals text e.literals ∧
        (evaluate text : Except EvaluationError α) =
          match e.literals.findSome? Literal.tooLarge? with
          | some found => .error (.literalTooLarge found)
          | none =>
            if Number.isFinite (e.treeValue Literal.number : α) then
              .ok (e.treeValue Literal.number)
            else .error .notFinite := by
  have hsome : ∀ e, IsExpression text e → (evaluate text : Except EvaluationError α) =
      match e.literals.findSome? Literal.tooLarge? with
      | some found => .error (.literalTooLarge found)
      | none =>
        if Number.isFinite (e.treeValue Literal.number : α) then .ok (e.treeValue Literal.number)
        else .error .notFinite := by
    intro e he
    rw [evaluate, Expression.parse?_eq_some_iff.mpr he]
    simp only [Expression.value_eq]
    cases e.literals.findSome? Literal.tooLarge? <;> rfl
  refine ⟨⟨?_, fun hnone => ?_⟩, fun e he =>
    ⟨Expression.hasLiterals_of_isExpression he, hsome e he⟩⟩
  · rintro herror ⟨e, he⟩
    rw [hsome e he] at herror
    split at herror
    · exact absurd herror (by simp)
    · split at herror <;> exact absurd herror (by simp)
  · have hparse : Expression.parse? text = none := by
      rw [Option.eq_none_iff_forall_ne_some]
      exact fun e he => hnone ⟨e, Expression.parse?_eq_some_iff.mp he⟩
    rw [evaluate, hparse]

/-- Of two literals that are too large the first one is named. -/
theorem evaluate_eq_literalTooLarge :
    IsExpression "-1.e5^0XFFFFFFFFFFFFFFFFF\t*(0x10000000000000000)".toList
        (.binary .multiply
          (.negate (.binary .power (.literal (.decimal ⟨1, 5⟩))
            (.literal (.hexadecimal "0XFFFFFFFFFFFFFFFFF".toList))))
          (.literal (.hexadecimal "0x10000000000000000".toList))) ∧
      (evaluate "-1.e5^0XFFFFFFFFFFFFFFFFF\t*(0x10000000000000000)".toList :
        Except EvaluationError Float) =
          .error (.literalTooLarge "0XFFFFFFFFFFFFFFFFF".toList) := by
  have h := Expression.parse?_eq_some_iff.mp (by decide +kernel :
    Expression.parse? "-1.e5^0XFFFFFFFFFFFFFFFFF\t*(0x10000000000000000)".toList =
      some (.binary .multiply
        (.negate (.binary .power (.literal (.decimal ⟨1, 5⟩))
          (.literal (.hexadecimal "0XFFFFFFFFFFFFFFFFF".toList))))
        (.literal (.hexadecimal "0x10000000000000000".toList))))
  exact ⟨h, ((evaluate_eq _).2 _ h).2⟩

end WireCodec
