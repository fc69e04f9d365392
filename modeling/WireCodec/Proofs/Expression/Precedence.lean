import WireCodec.Expression.Flat
import WireCodec.Proofs.Expression.Parser

/-!
# Precedence and the levels of the grammar

Reading an expression level by level, and reading a flat expression and climbing over its operators,
come to the same tree (`WireCodec.Expression.ofTokens?_eq_tree?`,
`WireCodec.Expression.parse?_eq_tree?`).

A list of tokens is the flat expression that has these tokens
(`WireCodec.FlatExpression.ofTokens?_eq_some_iff`), and whatever the grammar derives is one
(`WireCodec.FlatExpression.exists_tokens_eq`). So it remains to say what climbing makes of a flat
expression. Two things about a level matter to the table of operators: behind which limits its
expressions may stand (`WireCodec.Expression.Level.Above`), and which operators may take them for a
left operand (`WireCodec.Expression.Level.reach`). Said so, the table is the grammar
(`WireCodec.BinaryOperator.derives_binary`). Climbing to a limit gives an expression that may stand
behind it, and stops at an operator that does not belong to it
(`WireCodec.FlatExpression.IsClimbed`); it never fails, and no operator is left at the end
(`WireCodec.FlatExpression.exists_tree?_eq_some`).
-/

namespace WireCodec

open Token

variable {α : Type}

/-! ### Flat expressions and their tokens -/

namespace FlatExpression

variable {flat : FlatExpression α} {tokens rest : List (Token α)}

theorem operator?_eq_some_iff {t : Token α} {op : BinaryOperator} :
    operator? t = some op ↔ t = op.token := by
  constructor
  · intro h
    cases t <;> cases h <;> rfl
  · rintro rfl
    cases op <;> rfl

@[simp] theorem operator?_token (op : BinaryOperator) :
    operator? (op.token : Token α) = some op :=
  operator?_eq_some_iff.mpr rfl

theorem length_tokens_pos (flat : FlatExpression α) : 0 < flat.tokens.length := by
  cases flat <;> simp [FlatExpression.tokens]

/-- What is read behind an operand are the first tokens. -/
theorem tokens_of_readBehind
    {read? : List (Token α) → Option (FlatExpression α × List (Token α))}
    (hread : ∀ tokens flat rest, read? tokens = some (flat, rest) → tokens = flat.tokens ++ rest)
    {behind : FlatRest α} (h : readBehind read? tokens = (behind, rest)) :
    tokens = behind.tokens ++ rest := by
  have hnothing : ∀ {tokens : List (Token α)}, (FlatRest.nothing, tokens) = (behind, rest) →
      tokens = behind.tokens ++ rest := by
    intro tokens heq
    obtain ⟨rfl, rfl⟩ := Prod.mk.inj heq
    rfl
  unfold readBehind at h
  split at h
  · exact hnothing h
  · split at h
    · exact hnothing h
    · rename_i op hop
      split at h
      · exact hnothing h
      · rename_i more rest' hmore
        obtain ⟨rfl, rfl⟩ := Prod.mk.inj h
        rw [operator?_eq_some_iff.mp hop, hread _ _ _ hmore, FlatRest.tokens, List.cons_append]

/-- **What is read** are the first tokens. -/
theorem tokens_of_read? {depth : Nat} (h : read? depth tokens = some (flat, rest)) :
    tokens = flat.tokens ++ rest := by
  induction depth generalizing tokens flat rest with
  | zero => cases h
  | succ depth ih =>
    unfold read? at h
    split at h
    · split at h
      · rename_i more rest' hmore
        obtain ⟨rfl, rfl⟩ := Prod.mk.inj (Option.some.inj h)
        rw [ih hmore, FlatExpression.tokens, List.cons_append]
      · cases h
    · split at h
      rename_i behind rest' hbehind
      obtain ⟨rfl, rfl⟩ := Prod.mk.inj (Option.some.inj h)
      rw [FlatExpression.tokens, List.cons_append, tokens_of_readBehind (fun _ _ _ => ih) hbehind]
    · split at h
      · rename_i inner tokens hinner
        split at h
        rename_i behind rest' hbehind
        obtain ⟨rfl, rfl⟩ := Prod.mk.inj (Option.some.inj h)
        rw [ih hinner, FlatExpression.tokens, List.cons_append, List.append_assoc,
          List.cons_append, tokens_of_readBehind (fun _ _ _ => ih) hbehind]
      · cases h
    · cases h

/-- Nothing more is read behind an operand if there is no operator. -/
theorem readBehind_of_head? {read? : List (Token α) → Option (FlatExpression α × List (Token α))}
    (hrest : ∀ t ∈ rest.head?, operator? t = none) : readBehind read? rest = (.nothing, rest) := by
  cases rest with
  | nil => rfl
  | cons t rest => rw [readBehind, hrest t rfl]

/-- **All tokens of a flat expression are read**, if the tokens behind them do not go on with an
operator. -/
theorem read?_tokens {depth : Nat} (hdepth : flat.tokens.length ≤ depth)
    (hrest : ∀ t ∈ rest.head?, operator? t = none) :
    read? depth (flat.tokens ++ rest) = some (flat, rest) := by
  induction depth generalizing flat rest with
  | zero => exact absurd hdepth (Nat.not_le.mpr flat.length_tokens_pos)
  | succ depth ih =>
    have hbehind : ∀ {behind : FlatRest α}, behind.tokens.length ≤ depth →
        readBehind (read? depth) (behind.tokens ++ rest) = (behind, rest) := by
      intro behind hlength
      cases behind with
      | nothing => exact readBehind_of_head? hrest
      | operator op more =>
        rw [FlatRest.tokens, List.length_cons] at hlength
        rw [FlatRest.tokens, List.cons_append, readBehind, operator?_token]
        simp only [ih (Nat.le_of_succ_le hlength) hrest]
    cases flat with
    | negation more =>
      rw [FlatExpression.tokens, List.length_cons] at hdepth
      rw [FlatExpression.tokens, List.cons_append, read?, ih (Nat.le_of_succ_le_succ hdepth) hrest]
    | number value behind =>
      rw [FlatExpression.tokens, List.length_cons] at hdepth
      rw [FlatExpression.tokens, List.cons_append, read?, hbehind (Nat.le_of_succ_le_succ hdepth)]
    | group inner behind =>
      rw [FlatExpression.tokens, List.length_cons, List.length_append, List.length_cons] at hdepth
      -- The closing parenthesis is no operator.
      have hinner : read? depth (inner.tokens ++ .closing :: (behind.tokens ++ rest)) =
          some (inner, .closing :: (behind.tokens ++ rest)) :=
        ih (by omega) (by rintro t ⟨⟩; rfl)
      rw [FlatExpression.tokens, List.cons_append, List.append_assoc, List.cons_append, read?,
        hinner]
      simp only [hbehind (by omega : behind.tokens.length ≤ depth)]

/-- **A list of tokens is the flat expression with these tokens**, if there is one. -/
theorem ofTokens?_eq_some_iff : ofTokens? tokens = some flat ↔ flat.tokens = tokens := by
  constructor
  · intro h
    unfold ofTokens? at h
    split at h
    · rename_i flat' hread
      obtain rfl := Option.some.inj h
      rw [tokens_of_read? hread, List.append_nil]
    · cases h
  · rintro rfl
    have hread : read? flat.tokens.length (flat.tokens ++ []) = some (flat, []) :=
      read?_tokens (Nat.le_refl _) (by simp)
    rw [List.append_nil] at hread
    rw [ofTokens?, hread]

end FlatExpression

/-! ### Levels and bindings -/

namespace Expression

variable {tokens : List (Token α)} {e : Expression α}

/-- **An expression of the level may stand behind a limit**: the operator that makes it binds
tighter. An operand may stand behind any limit. -/
def Level.Above : Level → Nat → Prop
  | .sum, limit => limit < BinaryOperator.add.binding
  | .product, limit => limit < BinaryOperator.multiply.binding
  | .power, limit => limit < BinaryOperator.power.binding
  | .unary, _ | .primary, _ => True

/-- **How tight an operator may bind** whose left operand is an expression of the level. -/
def Level.reach : Level → Nat
  | .sum => BinaryOperator.add.rightLimit
  | .product => BinaryOperator.multiply.rightLimit
  | .unary => negationBinding - 1
  | .power => BinaryOperator.power.rightLimit
  | .primary => BinaryOperator.power.binding

theorem Level.Above.mono {level : Level} {limit limit' : Nat} (h : level.Above limit)
    (hle : limit' ≤ limit) : level.Above limit' := by
  cases level with
  | sum | product | power => exact Nat.lt_of_le_of_lt hle h
  | unary | primary => trivial

/-- Behind the limit of products there are unaries only. -/
theorem Derives.toUnary {level : Level} (h : Derives IsAlone level tokens e)
    (hlevel : level.Above BinaryOperator.multiply.rightLimit) :
    Derives IsAlone .unary tokens e := by
  cases level with
  | sum => exact absurd hlevel (by decide : ¬20 < 10)
  | product => exact absurd hlevel (by decide : ¬20 < 20)
  | unary => exact h
  | power => exact .ofPower h
  | primary => exact .ofPower (.ofPrimary h)

/-- Behind the limit of sums there are products only. -/
theorem Derives.toProduct {level : Level} (h : Derives IsAlone level tokens e)
    (hlevel : level.Above BinaryOperator.add.rightLimit) : Derives IsAlone .product tokens e := by
  cases level with
  | sum => exact absurd hlevel (by decide : ¬10 < 10)
  | product => exact h
  | unary | primary => exact .ofUnary (h.toUnary trivial)
  | power => exact .ofUnary (.ofPower h)

end Expression

open Expression

/-- The level that an operator makes. -/
def BinaryOperator.level : BinaryOperator → Level
  | add | subtract => .sum
  | multiply | divide | remainder => .product
  | power => .power

theorem BinaryOperator.above_level {op : BinaryOperator} {limit : Nat} (h : limit < op.binding) :
    op.level.Above limit := by
  cases op <;> exact h

theorem BinaryOperator.reach_level (op : BinaryOperator) : op.level.reach = op.rightLimit := by
  cases op <;> rfl

/-- **The table of operators is the grammar.** If an operator reaches its left operand, and the
right one may stand behind its limit, the two are joined at its level. -/
theorem BinaryOperator.derives_binary {op : BinaryOperator} {left right : List (Token α)}
    {el er : Expression α} {leftLevel rightLevel : Level}
    (hl : Derives IsAlone leftLevel left el) (hleft : op.binding ≤ leftLevel.reach)
    (hr : Derives IsAlone rightLevel right er) (hright : rightLevel.Above op.rightLimit) :
    Derives IsAlone op.level (left ++ op.token :: right) (.binary op el er) := by
  have hop := isAlone (op.token : Token α)
  cases op with
  | add | subtract => exact .sum hl.toSum rfl hop (hr.toProduct hright)
  | multiply | divide | remainder =>
    have hproduct : leftLevel.Above BinaryOperator.add.rightLimit := by
      cases leftLevel with
      | sum => exact absurd hleft (by decide)
      | product => exact (by decide : 10 < 20)
      | power => exact (by decide : 10 < 40)
      | unary | primary => trivial
    exact .product (hl.toProduct hproduct) rfl hop (hr.toUnary hright)
  | power =>
    have hprimary : leftLevel = .primary := by
      cases leftLevel with
      | primary => rfl
      | _ => exact absurd hleft (by decide)
    subst hprimary
    exact .power hl hop (hr.toUnary (hright.mono (by decide)))

theorem BinaryOperator.binding_le_power (op : BinaryOperator) :
    op.binding ≤ BinaryOperator.power.binding := by
  cases op <;> decide

/-! ### Climbing -/

/-- The operator behind an operand, if there is one, binds no tighter than a limit. -/
def FlatRest.StopsAt (limit : Nat) : FlatRest α → Prop
  | .nothing => True
  | .operator op _ => op.binding ≤ limit

namespace FlatExpression

variable {limit depth : Nat} {flat : FlatExpression α} {behind : FlatRest α}
  {tokens used : List (Token α)} {tree left : Expression α} {level : Level}

/-- **What climbing to a limit gives**: an expression that may stand behind the limit, made of the
first tokens, and behind it no operator that binds tighter. -/
structure IsClimbed (limit : Nat) (tokens : List (Token α)) (tree : Expression α)
    (behind : FlatRest α) : Prop where
  /-- The first tokens make up the expression. -/
  derives : ∃ level used, level.Above limit ∧ Derives IsAlone level used tree ∧
    tokens = used ++ behind.tokens
  /-- What is behind them does not belong to it. -/
  stops : behind.StopsAt limit

/-- **A climber climbs** all flat expressions of some number of tokens, to every limit. -/
def Climbs (climb? : Climber α) (depth : Nat) : Prop :=
  ∀ limit flat, flat.tokens.length ≤ depth →
    ∃ tree behind, climb? limit flat = some (tree, behind) ∧
      IsClimbed limit flat.tokens tree behind

/-- Behind the limit zero there is nothing left. -/
theorem IsClimbed.eq_nothing (h : IsClimbed 0 tokens tree behind) :
    behind = .nothing ∧ Derives IsAlone .sum tokens tree := by
  obtain ⟨⟨level, used, -, hderives, rfl⟩, hstops⟩ := h
  cases behind with
  | nothing => exact ⟨rfl, by rw [FlatRest.tokens, List.append_nil]; exact hderives.toSum⟩
  | operator op more =>
    have hpos : 0 < op.binding := by cases op <;> decide
    exact absurd hstops (Nat.not_le.mpr hpos)

/-- **The first operand** is an expression that the operator behind it reaches. -/
theorem exists_operand? {climb? : Climber α} (hclimb : Climbs climb? depth)
    (hdepth : flat.tokens.length ≤ depth + 1) :
    ∃ tree behind level used, operand? climb? flat = some (tree, behind) ∧
      Derives IsAlone level used tree ∧ flat.tokens = used ++ behind.tokens ∧
      (∀ limit, level.Above limit) ∧ behind.StopsAt level.reach := by
  have hprimary : ∀ {behind : FlatRest α}, behind.StopsAt (Level.reach .primary) := by
    intro behind
    cases behind with
    | nothing => trivial
    | operator op more => exact op.binding_le_power
  cases flat with
  | negation more =>
    obtain ⟨tree, behind, hmore, ⟨level, used, hlevel, hderives, htokens⟩, hstops⟩ :=
      hclimb (negationBinding - 1) more (Nat.le_of_succ_le_succ hdepth)
    refine ⟨.negate tree, behind, .unary, .minus :: used, by rw [operand?, hmore], ?_, ?_,
      fun _ => trivial, hstops⟩
    · exact .negate (isAlone _) (hderives.toUnary (hlevel.mono (by decide)))
    · rw [FlatExpression.tokens, htokens, List.cons_append]
  | number value behind =>
    exact ⟨.literal value, behind, .primary, [.literal value], rfl, .literal (isAlone _), rfl,
      fun _ => trivial, hprimary⟩
  | group inner behind =>
    rw [FlatExpression.tokens, List.length_cons, List.length_append] at hdepth
    obtain ⟨tree, behind', hinner, hclimbed⟩ := hclimb 0 inner (by omega)
    obtain ⟨rfl, hderives⟩ := hclimbed.eq_nothing
    refine ⟨tree, behind, .primary, .opening :: (inner.tokens ++ [.closing]),
      by rw [operand?, hinner], .group (isAlone _) hderives (isAlone _), ?_, fun _ => trivial,
      hprimary⟩
    rw [FlatExpression.tokens, List.cons_append, List.append_assoc, List.singleton_append]

/-- **Going on to a limit**, from an expression that the next operator reaches. -/
theorem exists_climbFrom? {climb? : Climber α} (hclimb : Climbs climb? depth) {count : Nat}
    (hcount : behind.tokens.length ≤ count) (hdepth : behind.tokens.length ≤ depth)
    (hlevel : level.Above limit) (hleft : Derives IsAlone level used left)
    (hstops : behind.StopsAt level.reach) :
    ∃ tree behind', climbFrom? climb? limit count left behind = some (tree, behind') ∧
      IsClimbed limit (used ++ behind.tokens) tree behind' := by
  induction count generalizing behind level used left with
  | zero =>
    cases behind with
    | nothing => exact ⟨left, .nothing, rfl, ⟨level, used, hlevel, hleft, rfl⟩, trivial⟩
    | operator op more => exact absurd hcount (by simp [FlatRest.tokens])
  | succ count ih =>
    cases behind with
    | nothing => exact ⟨left, .nothing, rfl, ⟨level, used, hlevel, hleft, rfl⟩, trivial⟩
    | operator op more =>
      rw [FlatRest.tokens, List.length_cons] at hcount hdepth
      by_cases hop : limit < op.binding
      · obtain ⟨right, behind', hmore, ⟨level', used', hlevel', hright, htokens⟩, hstops'⟩ :=
          hclimb op.rightLimit more (by omega)
        have hlength : behind'.tokens.length ≤ more.tokens.length := by
          rw [htokens, List.length_append]
          omega
        have hcount' : behind'.tokens.length ≤ count := by omega
        -- The operator and its operand have become a part of the expression on the left.
        have hjoined := BinaryOperator.derives_binary hleft hstops hright hlevel'
        rw [← BinaryOperator.reach_level] at hstops'
        obtain ⟨tree, behind'', hclimbed, his⟩ :=
          ih hcount' (by omega) (BinaryOperator.above_level hop) hjoined hstops'
        refine ⟨tree, behind'', ?_, ?_⟩
        · rw [climbFrom?, if_pos hop, hmore]
          exact hclimbed
        · rwa [FlatRest.tokens, htokens, ← List.cons_append, ← List.append_assoc]
      · exact ⟨left, .operator op more, by rw [climbFrom?, if_neg hop],
          ⟨level, used, hlevel, hleft, rfl⟩, Nat.le_of_not_lt hop⟩

/-- **The climber climbs.** -/
theorem climbs_climb? (depth : Nat) : Climbs (climb? depth : Climber α) depth := by
  induction depth with
  | zero => exact fun limit flat hdepth => absurd hdepth (Nat.not_le.mpr flat.length_tokens_pos)
  | succ depth ih =>
    intro limit flat hdepth
    obtain ⟨left, behind, level, used, hoperand, hleft, htokens, hlevel, hstops⟩ :=
      exists_operand? ih hdepth
    have hpos := Expression.length_pos_of_derives hleft
    rw [htokens, List.length_append] at hdepth
    obtain ⟨tree, behind', hclimbed, his⟩ :=
      exists_climbFrom? ih (by omega : _ ≤ depth) (by omega) (hlevel limit) hleft hstops
    exact ⟨tree, behind', by rw [climb?, hoperand]; exact hclimbed, htokens ▸ his⟩

/-- **Every flat expression has a tree**, which the grammar derives from its tokens. -/
theorem exists_tree?_eq_some (flat : FlatExpression α) :
    ∃ tree, flat.tree? = some tree ∧ Derives IsAlone .sum flat.tokens tree := by
  obtain ⟨tree, behind, hclimbed, his⟩ :=
    climbs_climb? flat.tokens.length 0 flat (Nat.le_refl _)
  obtain ⟨rfl, hderives⟩ := his.eq_nothing
  exact ⟨tree, by rw [tree?, hclimbed], hderives⟩

/-! ### What the grammar derives is flat -/

/-- Two lists of tokens with an operator between them go on in the same way. -/
theorem exists_tokens_eq_append {left right : List (Token α)} (op : BinaryOperator)
    (hl : ∀ behind : FlatRest α, ∃ flat : FlatExpression α, flat.tokens = left ++ behind.tokens)
    (hr : ∀ behind : FlatRest α, ∃ flat : FlatExpression α, flat.tokens = right ++ behind.tokens)
    (behind : FlatRest α) :
    ∃ flat : FlatExpression α,
      flat.tokens = left ++ ([op.token] ++ right) ++ behind.tokens := by
  obtain ⟨more, hmore⟩ := hr behind
  obtain ⟨flat, hflat⟩ := hl (.operator op more)
  refine ⟨flat, ?_⟩
  rw [hflat, FlatRest.tokens, hmore, List.append_assoc, List.append_assoc, List.singleton_append]

/-- **Derived tokens are those of a flat expression**, whatever goes on behind them. -/
theorem exists_tokens_eq (h : Derives IsAlone level tokens tree) (behind : FlatRest α) :
    ∃ flat : FlatExpression α, flat.tokens = tokens ++ behind.tokens := by
  induction h generalizing behind with
  | @literal a w hw =>
    obtain rfl := hw
    exact ⟨.number a behind, rfl⟩
  | group hw _ hw' ih =>
    obtain rfl := hw
    obtain rfl := hw'
    obtain ⟨inner, hinner⟩ := ih .nothing
    refine ⟨.group inner behind, ?_⟩
    rw [FlatExpression.tokens, hinner, FlatRest.tokens, List.append_nil, List.append_assoc,
      List.append_assoc]
    rfl
  | power _ hw _ ihl ihr =>
    obtain rfl := hw
    exact exists_tokens_eq_append .power ihl ihr behind
  | negate hw _ ih =>
    obtain rfl := hw
    obtain ⟨rest, hrest⟩ := ih behind
    exact ⟨.negation rest, by rw [FlatExpression.tokens, hrest]; rfl⟩
  | @product _ _ _ _ _ t op _ ht hw _ ihl ihr =>
    obtain rfl := hw
    obtain rfl : t = op.token := by cases t <;> cases ht <;> rfl
    exact exists_tokens_eq_append op ihl ihr behind
  | @sum _ _ _ _ _ t op _ ht hw _ ihl ihr =>
    obtain rfl := hw
    obtain rfl : t = op.token := by cases t <;> cases ht <;> rfl
    exact exists_tokens_eq_append op ihl ihr behind
  | ofPrimary _ ih | ofPower _ ih | ofUnary _ ih | ofProduct _ ih => exact ih behind

end FlatExpression

/-! ### The two ways to read -/

namespace Expression

/-- **Tokens are the same expression in one stage and in two.** -/
theorem ofTokens?_eq_tree? (tokens : List (Token α)) :
    ofTokens? tokens = (FlatExpression.ofTokens? tokens).bind FlatExpression.tree? := by
  cases hflat : FlatExpression.ofTokens? tokens with
  | some flat =>
    obtain rfl := FlatExpression.ofTokens?_eq_some_iff.mp hflat
    obtain ⟨tree, htree, hderives⟩ := flat.exists_tree?_eq_some
    rw [Option.bind_some, htree, ofTokens?_eq_some_iff.mpr hderives]
  | none =>
    rw [Option.bind_none, Option.eq_none_iff_forall_ne_some]
    intro tree htree
    obtain ⟨flat, htokens⟩ :=
      FlatExpression.exists_tokens_eq (ofTokens?_eq_some_iff.mp htree) .nothing
    rw [FlatRest.tokens, List.append_nil] at htokens
    rw [FlatExpression.ofTokens?_eq_some_iff.mpr htokens] at hflat
    cases hflat

/-- **Reading a text level by level is reading it flat and climbing over its operators.** -/
theorem parse?_eq_tree? (text : List Char) :
    parse? text =
      ((Token.scan? text).bind FlatExpression.ofTokens?).bind FlatExpression.tree? := by
  rw [parse?, Option.bind_assoc]
  exact congrArg _ (funext ofTokens?_eq_tree?)

end Expression

end WireCodec
