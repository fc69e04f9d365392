import WireCodec.Expression.Tree

/-!
# Flat expressions

An expression can be read in two stages instead of level by level. The first one knows nothing of
levels. What it reads is a **flat expression**: operands with operators between them, where an
operand is a number or a flat expression in parentheses, with any number of `-` before it
(`WireCodec.FlatExpression.ofTokens?`).

The second stage decides which operators go with which operands. A table says how tight an operator
binds (`WireCodec.BinaryOperator.binding`) and whether it groups to the left or to the right
(`WireCodec.BinaryOperator.grouping`). An operand takes all operators behind it that bind tighter
than a limit, which is raised for the right operands of each of them
(`WireCodec.FlatExpression.climb?`). At the limit zero, that is the whole expression
(`WireCodec.FlatExpression.tree?`).
-/

namespace WireCodec

/-! ### The table -/

/-- The side to which operators that bind equally tight group. -/
inductive Grouping
  /-- The left operand has been joined already. -/
  | left
  /-- The right operand is joined first. -/
  | right
deriving DecidableEq, Repr

namespace BinaryOperator

/-- **How tight an operator binds.** -/
def binding : BinaryOperator → Nat
  | add | subtract => 10
  | multiply | divide | remainder => 20
  | power => 40

/-- To which side an operator groups. -/
def grouping : BinaryOperator → Grouping
  | power => .right
  | _ => .left

/-- What the operators of a right operand have to bind tighter than. -/
def rightLimit (operator : BinaryOperator) : Nat :=
  match operator.grouping with
  | .left => operator.binding
  | .right => operator.binding - 1

end BinaryOperator

/-- How tight a leading `-` binds: tighter than products, but not than powers. -/
def negationBinding : Nat := 30

/-! ### Flat expressions -/

mutual

/-- **A flat expression**: operands and the operators between them. -/
inductive FlatExpression (α : Type)
  /-- A `-` before the first operand. -/
  | negation (rest : FlatExpression α)
  /-- A number, and what is behind it. -/
  | number (value : α) (behind : FlatRest α)
  /-- A flat expression in parentheses, and what is behind it. -/
  | group (inner : FlatExpression α) (behind : FlatRest α)

/-- **What is behind an operand.** -/
inductive FlatRest (α : Type)
  /-- Nothing. -/
  | nothing
  /-- An operator and more operands. -/
  | operator (operator : BinaryOperator) (more : FlatExpression α)

end

namespace FlatExpression

variable {α : Type}

/-! ### Reading tokens -/

/-- The operators that stand between operands. -/
def operator? : Token α → Option BinaryOperator
  | .plus => some .add
  | .minus => some .subtract
  | .times => some .multiply
  | .slash => some .divide
  | .percent => some .remainder
  | .caret => some .power
  | _ => none

/-- What is behind an operand, given how to read more operands: nothing, unless there is an operator
with more operands behind it. -/
def readBehind (read? : List (Token α) → Option (FlatExpression α × List (Token α))) :
    List (Token α) → FlatRest α × List (Token α)
  | [] => (.nothing, [])
  | token :: tokens =>
    match operator? token with
    | none => (.nothing, token :: tokens)
    | some operator =>
      match read? tokens with
      | none => (.nothing, token :: tokens)
      | some (more, rest) => (.operator operator more, rest)

/-- A flat expression at the start of some tokens. Parts of it are read down to `depth`. -/
def read? : (depth : Nat) → List (Token α) → Option (FlatExpression α × List (Token α))
  | 0, _ => none
  | depth + 1, tokens =>
    match tokens with
    | .minus :: tokens =>
      match read? depth tokens with
      | some (more, rest) => some (.negation more, rest)
      | none => none
    | .literal value :: tokens =>
      let (behind, rest) := readBehind (read? depth) tokens
      some (.number value behind, rest)
    | .opening :: tokens =>
      match read? depth tokens with
      | some (inner, .closing :: tokens) =>
        let (behind, rest) := readBehind (read? depth) tokens
        some (.group inner behind, rest)
      | _ => none
    | _ => none

/-- **The flat expression that a whole list of tokens is.** -/
def ofTokens? (tokens : List (Token α)) : Option (FlatExpression α) :=
  match read? tokens.length tokens with
  | some (flat, []) => some flat
  | _ => none

/-! ### Trees -/

/-- A climber makes the tree of an operand and of the operators behind it that bind tighter than a
limit. What is behind those is left. -/
abbrev Climber (α : Type) : Type :=
  Nat → FlatExpression α → Option (Expression α × FlatRest α)

/-- The tree of the first operand, given how to climb within it. -/
def operand? (climb? : Climber α) : FlatExpression α → Option (Expression α × FlatRest α)
  | .negation rest =>
    match climb? (negationBinding - 1) rest with
    | some (tree, behind) => some (.negate tree, behind)
    | none => none
  | .number value behind => some (.literal value, behind)
  | .group inner behind =>
    match climb? 0 inner with
    | some (tree, .nothing) => some (tree, behind)
    | _ => none

/-- Go on after the tree `left` as long as the next operator binds tighter than the limit, for at
most `count` operators. -/
def climbFrom? (climb? : Climber α) (limit : Nat) :
    (count : Nat) → Expression α → FlatRest α → Option (Expression α × FlatRest α)
  | _, left, .nothing => some (left, .nothing)
  | 0, _, .operator _ _ => none
  | count + 1, left, .operator operator more =>
    if limit < operator.binding then
      match climb? operator.rightLimit more with
      | some (right, behind) =>
        climbFrom? climb? limit count (.binary operator left right) behind
      | none => none
    else some (left, .operator operator more)

/-- **Climb to a limit.** Operands within are climbed in the same way, down to `depth`. -/
def climb? : (depth : Nat) → Climber α
  | 0, _, _ => none
  | depth + 1, limit, flat =>
    match operand? (climb? depth) flat with
    | some (left, behind) => climbFrom? (climb? depth) limit depth left behind
    | none => none

end FlatExpression

/-! ### Writing tokens -/

/-- The token of an operator. -/
def BinaryOperator.token {α : Type} : BinaryOperator → Token α
  | add => .plus
  | subtract => .minus
  | multiply => .times
  | divide => .slash
  | remainder => .percent
  | power => .caret

mutual

/-- **The tokens of a flat expression.** -/
def FlatExpression.tokens {α : Type} : FlatExpression α → List (Token α)
  | .negation rest => .minus :: rest.tokens
  | .number value behind => .literal value :: behind.tokens
  | .group inner behind => .opening :: (inner.tokens ++ .closing :: behind.tokens)

/-- The tokens behind an operand. -/
def FlatRest.tokens {α : Type} : FlatRest α → List (Token α)
  | .nothing => []
  | .operator operator more => operator.token :: more.tokens

end

/-- **The tree of a flat expression.** As many levels as it has tokens are enough. -/
def FlatExpression.tree? {α : Type} (flat : FlatExpression α) : Option (Expression α) :=
  match climb? flat.tokens.length 0 flat with
  | some (tree, .nothing) => some tree
  | _ => none

end WireCodec
