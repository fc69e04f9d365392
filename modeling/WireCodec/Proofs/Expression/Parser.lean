import WireCodec.Proofs.Expression.Grammar

/-!
# The reader of expressions and the grammar

`WireCodec.Expression.ofTokens?` finds exactly the expression that the grammar derives from a list
of tokens (`WireCodec.Expression.ofTokens?_eq_some_iff`), so that a list of tokens is at most one
expression.

Soundness goes through the readers from the tightest to the loosest: what a reader takes from the
start of the tokens is derived at its level (`WireCodec.Expression.IsSound`), provided that the
reader of unaries within it is sound. For completeness, a derivation is followed while the reader
goes along it. A reader reads on as long as it can, so the tokens behind the derived ones must not
go on with an operator of that level or of a tighter one (`WireCodec.Expression.Stops`).
-/

namespace WireCodec.Expression

variable {α : Type} {e : Expression α} {tokens rest : List (Token α)}

/-! ### Soundness -/

/-- **A reader of a level is sound**: what it takes is derived at this level. -/
def IsSound (level : Level) (reader : TokenReader α) : Prop :=
  ∀ tokens e rest, reader tokens = some (e, rest) →
    ∃ used, tokens = used ++ rest ∧ Derives Token.IsAlone level used e

/-- A chain that goes on after a derived list is derived together with it, if one operator and one
operand more make a derived list. -/
theorem chainFrom_sound {level inner : Level} {operator? : Token α → Option BinaryOperator}
    {operand : TokenReader α} (hoperand : IsSound inner operand)
    (hstep : ∀ left right t op el er, Derives Token.IsAlone level left el →
      operator? t = some op → Derives Token.IsAlone inner right er →
      Derives Token.IsAlone level (left ++ t :: right) (.binary op el er))
    {count : Nat} {left : List (Token α)} {el : Expression α}
    (hleft : Derives Token.IsAlone level left el)
    (h : chainFrom operator? operand count el tokens = some (e, rest)) :
    ∃ used, tokens = used ++ rest ∧ Derives Token.IsAlone level (left ++ used) e := by
  induction count generalizing left el tokens with
  | zero =>
    cases tokens <;> obtain ⟨rfl, rfl⟩ := by simpa [chainFrom] using h
    all_goals exact ⟨[], rfl, by rwa [List.append_nil]⟩
  | succ count ih =>
    cases tokens with
    | nil =>
      obtain ⟨rfl, rfl⟩ := by simpa [chainFrom] using h
      exact ⟨[], rfl, by rwa [List.append_nil]⟩
    | cons t tokens =>
      rw [chainFrom] at h
      split at h
      · obtain ⟨rfl, rfl⟩ := by simpa using h
        exact ⟨[], rfl, by rwa [List.append_nil]⟩
      · rename_i op hop
        split at h
        · exact absurd h (by simp)
        · rename_i er behind hread
          obtain ⟨right, rfl, hright⟩ := hoperand _ _ _ hread
          obtain ⟨used, rfl, hused⟩ := ih (hstep _ _ _ _ _ _ hleft hop hright) h
          refine ⟨t :: right ++ used, by simp, ?_⟩
          simpa only [List.append_assoc] using hused

theorem chain_sound {level inner : Level} {operator? : Token α → Option BinaryOperator}
    {operand : TokenReader α} (hoperand : IsSound inner operand)
    (hstart : ∀ (used : List (Token α)) e, Derives Token.IsAlone inner used e →
      Derives Token.IsAlone level used e)
    (hstep : ∀ left right t op el er, Derives Token.IsAlone level left el →
      operator? t = some op → Derives Token.IsAlone inner right er →
      Derives Token.IsAlone level (left ++ t :: right) (.binary op el er)) :
    IsSound level (chain operator? operand) := by
  intro tokens e rest h
  rw [chain] at h
  split at h
  · exact absurd h (by simp)
  · rename_i el behind hread
    obtain ⟨left, rfl, hleft⟩ := hoperand _ _ _ hread
    obtain ⟨used, rfl, hused⟩ := chainFrom_sound hoperand hstep (hstart _ _ hleft) h
    exact ⟨left ++ used, by simp, hused⟩

section Readers

variable {unary : TokenReader α} (hunary : IsSound .unary unary)
include hunary

theorem product_sound : IsSound .product (chain productOperator? unary) := by
  refine chain_sound hunary (fun _ _ => .ofUnary) ?_
  intro left right t op el er hl ht hr
  exact .product hl ht (Token.isAlone t) hr

theorem sum_sound : IsSound .sum (sum unary) := by
  refine chain_sound (product_sound hunary) (fun _ _ => .ofProduct) ?_
  intro left right t op el er hl ht hr
  exact .sum hl ht (Token.isAlone t) hr

theorem primary_sound : IsSound .primary (primary unary) := by
  intro tokens e rest h
  unfold primary at h
  split at h
  · obtain ⟨rfl, rfl⟩ := by simpa using h
    exact ⟨[_], rfl, .literal rfl⟩
  · split at h
    · rename_i e' behind hread
      obtain ⟨rfl, rfl⟩ := by simpa using h
      obtain ⟨used, rfl, hused⟩ := sum_sound hunary _ _ _ hread
      exact ⟨[.opening] ++ (used ++ [.closing]), by simp,
        .group (Token.isAlone _) hused (Token.isAlone _)⟩
    · exact absurd h (by simp)
  · exact absurd h (by simp)

theorem power_sound : IsSound .power (power unary) := by
  intro tokens e rest h
  unfold power at h
  split at h
  · rename_i base behind hbase
    obtain ⟨left, rfl, hleft⟩ := primary_sound hunary _ _ _ hbase
    split at h
    · rename_i exponent rest' hread
      obtain ⟨rfl, rfl⟩ := by simpa using h
      obtain ⟨right, rfl, hright⟩ := hunary _ _ _ hread
      exact ⟨left ++ ([.caret] ++ right), by simp, .power hleft (Token.isAlone _) hright⟩
    · exact absurd h (by simp)
  · obtain ⟨used, rfl, hused⟩ := primary_sound hunary _ _ _ h
    exact ⟨used, rfl, .ofPrimary hused⟩

end Readers

theorem unary_minus (depth : Nat) (tokens : List (Token α)) :
    unary (depth + 1) (.minus :: tokens) =
      (unary depth tokens).map fun found => (.negate found.1, found.2) := by
  rw [unary]
  cases unary depth tokens <;> rfl

theorem unary_of_ne_minus (depth : Nat) (h : ∀ behind, tokens ≠ .minus :: behind) :
    unary (depth + 1) tokens = power (unary depth) tokens := by
  unfold unary
  split
  · rename_i heq
    exact absurd heq (by simp)
  · exact absurd rfl (h _)
  · simp_all

/-- **The reader of unaries is sound**, whatever its depth. -/
theorem unary_sound (depth : Nat) : IsSound .unary (unary depth : TokenReader α) := by
  induction depth with
  | zero =>
    intro tokens e rest h
    exact absurd h (by simp [unary])
  | succ depth ih =>
    intro tokens e rest h
    by_cases hminus : ∃ behind, tokens = .minus :: behind
    · obtain ⟨behind, rfl⟩ := hminus
      rw [unary_minus, Option.map_eq_some_iff] at h
      obtain ⟨⟨e', rest'⟩, hread, heq⟩ := h
      obtain ⟨rfl, rfl⟩ := by simpa using heq
      obtain ⟨used, rfl, hused⟩ := ih _ _ _ hread
      exact ⟨[.minus] ++ used, rfl, .negate (Token.isAlone _) hused⟩
    · rw [unary_of_ne_minus depth (fun behind heq => hminus ⟨behind, heq⟩)] at h
      obtain ⟨used, rfl, hused⟩ := power_sound ih _ _ _ h
      exact ⟨used, rfl, .ofPower hused⟩

/-! ### Completeness -/

/-- **A reader of the level stops before these tokens**: they do not go on with an operator of this
level or of a tighter one. -/
def Stops : Level → List (Token α) → Prop
  | _, [] => True
  | .sum, t :: _ => sumOperator? t = none ∧ productOperator? t = none ∧ t ≠ .caret
  | .product, t :: _ => productOperator? t = none ∧ t ≠ .caret
  | .unary, t :: _ | .power, t :: _ => t ≠ .caret
  | .primary, _ :: _ => True

theorem chainFrom_stops {operator? : Token α → Option BinaryOperator} {operand : TokenReader α}
    {count : Nat} (h : ∀ t ∈ rest.head?, operator? t = none) :
    chainFrom operator? operand count e rest = some (e, rest) := by
  cases rest with
  | nil => cases count <;> rfl
  | cons t rest =>
    cases count with
    | zero => rfl
    | succ count => rw [chainFrom, h t rfl]

/-- One more operator and operand of a chain. -/
theorem chainFrom_step {operator? : Token α → Option BinaryOperator} {operand : TokenReader α}
    {count : Nat} {t : Token α} {op : BinaryOperator} {er : Expression α}
    {right : List (Token α)} (ht : operator? t = some op)
    (hright : operand (right ++ rest) = some (er, rest)) :
    chainFrom operator? operand (count + 1) e (t :: right ++ rest) =
      chainFrom operator? operand count (.binary op e er) rest := by
  rw [List.cons_append, chainFrom, ht, hright]

/-- **What a reader does with a derived list**, with all the readers of unaries in it down to a
depth. At the levels of chains it comes to the point where it has read the list and goes on behind
it; it could still read as many operators as there are tokens there. -/
def Reads (depth : Nat) : Level → List (Token α) → Expression α → Prop
  | .primary, used, e => ∀ rest, primary (unary depth) (used ++ rest) = some (e, rest)
  | .power, used, e => ∀ rest, Stops .unary rest →
      power (unary depth) (used ++ rest) = some (e, rest)
  | .unary, used, e => ∀ rest, Stops .unary rest →
      unary (depth + 1) (used ++ rest) = some (e, rest)
  | .product, used, e => ∀ rest, Stops .unary rest → ∃ count, rest.length ≤ count ∧
      chain productOperator? (unary (depth + 1)) (used ++ rest) =
        chainFrom productOperator? (unary (depth + 1)) count e rest
  | .sum, used, e => ∀ rest, Stops .product rest → ∃ count, rest.length ≤ count ∧
      sum (unary (depth + 1)) (used ++ rest) =
        chainFrom sumOperator? (chain productOperator? (unary (depth + 1))) count e rest

theorem Stops.product (h : Stops .sum rest) : Stops .product rest := by
  cases rest with
  | nil => trivial
  | cons t rest => exact h.2

theorem Stops.unary (h : Stops .product rest) : Stops .unary rest := by
  cases rest with
  | nil => trivial
  | cons t rest => exact h.2

section Behind

variable {t : Token α} {op : BinaryOperator}

theorem stops_unary_of_productOperator? (h : productOperator? t = some op) :
    Stops .unary (t :: rest) := by
  rintro rfl
  exact absurd h (by simp [productOperator?])

theorem stops_product_of_sumOperator? (h : sumOperator? t = some op) :
    Stops .product (t :: rest) := by
  cases t <;> simp_all [sumOperator?, productOperator?, Stops]

end Behind

/-- Where a product stops, its reader gives back what it has. -/
theorem Reads.product {depth : Nat} {used : List (Token α)} (h : Reads depth .product used e)
    (hrest : Stops .product rest) :
    chain productOperator? (unary (depth + 1)) (used ++ rest) = some (e, rest) := by
  obtain ⟨count, -, heq⟩ := h rest hrest.unary
  rw [heq]
  refine chainFrom_stops fun t ht => ?_
  cases rest with
  | nil => exact absurd ht (by simp)
  | cons t' rest =>
    obtain rfl : t' = t := by simpa using ht
    exact hrest.1

/-- Where a sum stops, its reader gives back what it has. -/
theorem Reads.sum {depth : Nat} {used : List (Token α)} (h : Reads depth .sum used e)
    (hrest : Stops .sum rest) :
    Expression.sum (unary (depth + 1)) (used ++ rest) = some (e, rest) := by
  obtain ⟨count, -, heq⟩ := h rest hrest.product
  rw [heq]
  refine chainFrom_stops fun t ht => ?_
  cases rest with
  | nil => exact absurd ht (by simp)
  | cons t' rest =>
    obtain rfl : t' = t := by simpa using ht
    exact hrest.1

/-- A derived list has at least one token. -/
theorem length_pos_of_derives {level : Level} (h : Derives Token.IsAlone level tokens e) :
    0 < tokens.length := by
  obtain ⟨t, w, tail, rfl, rfl, -⟩ := h.exists_first
  simp

/-- Neither a primary nor a power starts with a `-`. -/
theorem ne_minus_of_derives_power (h : Derives Token.IsAlone .power tokens e)
    (behind : List (Token α)) : tokens ++ rest ≠ .minus :: behind := by
  have hprimary : ∀ {tokens e} rest, Derives Token.IsAlone .primary tokens e →
      tokens ++ rest ≠ Token.minus (α := α) :: behind := by
    rintro tokens e rest (⟨rfl⟩ | ⟨rfl, -, -⟩) <;> simp
  cases h with
  | power hl hw hr =>
    rw [List.append_assoc, List.append_assoc]
    exact hprimary _ hl
  | ofPrimary h => exact hprimary _ h

/-- **The readers are complete**: at every level they read a derived list, if the depth is enough
for its tokens. -/
theorem reads_of_derives {level : Level} {used : List (Token α)}
    (h : Derives Token.IsAlone level used e) :
    ∀ depth, used.length ≤ depth + 1 → Reads depth level used e := by
  induction h with
  | literal hw =>
    intro depth _ rest
    obtain rfl := hw
    rfl
  | @group _ text _ e hw h hw' ih =>
    intro depth hlen rest
    obtain rfl := hw
    obtain rfl := hw'
    obtain ⟨depth, rfl⟩ : ∃ d, depth = d + 1 := ⟨depth - 1, by simp at hlen; omega⟩
    -- The closing parenthesis stops the sum.
    have hstops : Stops .sum (.closing :: rest) := ⟨rfl, rfl, by simp⟩
    have hsum := (ih depth (by simp at hlen; omega)).sum hstops
    simp only [List.append_assoc, List.cons_append, List.nil_append, primary, hsum]
  | @power left _ right base exponent hl hw hr ihl ihr =>
    intro depth hlen rest hrest
    obtain rfl := hw
    -- There are two tokens at least before the exponent, so the depth below is enough for it.
    have hpos := length_pos_of_derives hl
    obtain ⟨depth, rfl⟩ : ∃ d, depth = d + 1 := ⟨depth - 1, by simp at hlen; omega⟩
    have hbase := ihl (depth + 1) (by simp at hlen; omega) (.caret :: (right ++ rest))
    have hexponent := ihr depth (by simp at hlen; omega) rest hrest
    rw [List.append_assoc, List.append_assoc, List.singleton_append, Expression.power, hbase]
    simp only [hexponent]
  | @negate _ text e hw h ih =>
    intro depth hlen rest hrest
    obtain rfl := hw
    have hpos := length_pos_of_derives h
    obtain ⟨depth, rfl⟩ : ∃ d, depth = d + 1 := ⟨depth - 1, by simp at hlen; omega⟩
    have hunary := ih depth (by simpa using hlen) rest hrest
    rw [List.append_assoc, List.singleton_append, unary_minus, hunary]
    rfl
  | @product left _ right el er t op hl ht hw hr ihl ihr =>
    intro depth hlen rest hrest
    obtain rfl := hw
    -- The reader has come to the operator, and the count allows for one more.
    obtain ⟨count, hcount, hchain⟩ :=
      ihl depth (by simp at hlen; omega) (t :: right ++ rest) (stops_unary_of_productOperator? ht)
    obtain ⟨count, rfl⟩ : ∃ n, count = n + 1 := ⟨count - 1, by simp at hcount; omega⟩
    refine ⟨count, by simp at hcount; omega, ?_⟩
    rw [List.append_assoc, List.append_assoc, List.singleton_append, ← List.cons_append, hchain]
    exact chainFrom_step ht (ihr depth (by simp at hlen; omega) rest hrest)
  | @sum left _ right el er t op hl ht hw hr ihl ihr =>
    intro depth hlen rest hrest
    obtain rfl := hw
    obtain ⟨count, hcount, hchain⟩ :=
      ihl depth (by simp at hlen; omega) (t :: right ++ rest) (stops_product_of_sumOperator? ht)
    obtain ⟨count, rfl⟩ : ∃ n, count = n + 1 := ⟨count - 1, by simp at hcount; omega⟩
    refine ⟨count, by simp at hcount; omega, ?_⟩
    rw [List.append_assoc, List.append_assoc, List.singleton_append, ← List.cons_append, hchain]
    exact chainFrom_step ht ((ihr depth (by simp at hlen; omega)).product hrest)
  | ofPrimary h ih =>
    intro depth hlen rest hrest
    rw [Expression.power, ih depth hlen rest]
    split
    · rename_i heq
      obtain ⟨-, rfl⟩ := by simpa using heq
      exact absurd rfl hrest
    · rfl
  | ofPower h ih =>
    intro depth hlen rest hrest
    -- Without a `-` in front the reader of unaries is the one of powers.
    rw [unary_of_ne_minus depth (ne_minus_of_derives_power h)]
    exact ih depth hlen rest hrest
  | ofUnary h ih =>
    intro depth hlen rest hrest
    refine ⟨rest.length, Nat.le_refl _, ?_⟩
    rw [chain, ih depth hlen rest hrest]
  | ofProduct h ih =>
    intro depth hlen rest hrest
    refine ⟨rest.length, Nat.le_refl _, ?_⟩
    rw [Expression.sum, chain, (ih depth hlen).product hrest]

/-- **The reader of expressions is the grammar.** -/
theorem ofTokens?_eq_some_iff :
    ofTokens? tokens = some e ↔ Derives Token.IsAlone .sum tokens e := by
  constructor
  · intro h
    unfold ofTokens? at h
    split at h
    · rename_i e' hread
      obtain rfl := by simpa using h
      obtain ⟨used, rfl, hused⟩ := sum_sound (unary_sound _) _ _ _ hread
      rwa [List.append_nil]
    · exact absurd h (by simp)
  · intro h
    have hpos := length_pos_of_derives h
    obtain ⟨depth, hdepth⟩ : ∃ d, tokens.length = d + 1 := ⟨tokens.length - 1, by omega⟩
    have hstops : Stops (α := α) .sum [] := trivial
    have hread := (reads_of_derives h depth (Nat.le_of_eq hdepth)).sum hstops
    rw [List.append_nil] at hread
    rw [ofTokens?, hdepth, hread]

/-- A list of tokens is at most one expression. -/
theorem derives_unique {e' : Expression α} (h : Derives Token.IsAlone .sum tokens e)
    (h' : Derives Token.IsAlone .sum tokens e') : e = e' := by
  rw [← ofTokens?_eq_some_iff] at h h'
  exact Option.some.inj (h.symm.trans h')

end WireCodec.Expression
