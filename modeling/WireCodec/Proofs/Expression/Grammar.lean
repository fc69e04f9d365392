import WireCodec.Expression.Tree

/-!
# The grammar of expressions

`WireCodec.Expression.parse?` is a reader that goes through tokens from the left. What it reads is
said here without it, as a grammar: `WireCodec.Expression.Derives` has one rule for every way in
which an expression is put together. The five levels are those of the module on expressions.

The same rules hold for lists of tokens and for texts. They differ in what a single token looks
like only, so the grammar is over any way of writing one, `written`. In a list of tokens a token
stands for itself (`WireCodec.Token.IsAlone`).
-/

namespace WireCodec

namespace Expression

/-- **A level of the grammar**, from the loosest to the tightest. -/
inductive Level
  /-- Products joined by `+` and `-`. -/
  | sum
  /-- Unaries joined by `*`, `/` and `%`. -/
  | product
  /-- A power, with any number of `-` before it. -/
  | unary
  /-- A primary, possibly with an exponent. -/
  | power
  /-- A number or a sum in parentheses. -/
  | primary
deriving DecidableEq, Repr

variable {α β σ : Type}

/-- **The grammar.** At a level, a list is an expression; `written` says which lists are a given
token. -/
inductive Derives (written : Token α → List σ → Prop) : Level → List σ → Expression α → Prop
  /-- A number is a primary. -/
  | literal {a : α} {w : List σ} (hw : written (.literal a) w) :
      Derives written .primary w (.literal a)
  /-- A sum in parentheses is a primary. -/
  | group {w text w' : List σ} {e : Expression α} (hw : written .opening w)
      (h : Derives written .sum text e) (hw' : written .closing w') :
      Derives written .primary (w ++ (text ++ w')) e
  /-- A primary with an exponent is a power. -/
  | power {left w right : List σ} {base exponent : Expression α}
      (hl : Derives written .primary left base) (hw : written .caret w)
      (hr : Derives written .unary right exponent) :
      Derives written .power (left ++ (w ++ right)) (.binary .power base exponent)
  /-- A unary with a `-` before it is a unary. -/
  | negate {w text : List σ} {e : Expression α} (hw : written .minus w)
      (h : Derives written .unary text e) : Derives written .unary (w ++ text) (.negate e)
  /-- A product goes on with an operator and a unary. -/
  | product {left w right : List σ} {el er : Expression α} {t : Token α} {op : BinaryOperator}
      (hl : Derives written .product left el) (ht : productOperator? t = some op)
      (hw : written t w) (hr : Derives written .unary right er) :
      Derives written .product (left ++ (w ++ right)) (.binary op el er)
  /-- A sum goes on with an operator and a product. -/
  | sum {left w right : List σ} {el er : Expression α} {t : Token α} {op : BinaryOperator}
      (hl : Derives written .sum left el) (ht : sumOperator? t = some op)
      (hw : written t w) (hr : Derives written .product right er) :
      Derives written .sum (left ++ (w ++ right)) (.binary op el er)
  /-- A primary is a power without an exponent. -/
  | ofPrimary {text : List σ} {e : Expression α} (h : Derives written .primary text e) :
      Derives written .power text e
  /-- A power is a unary without a `-`. -/
  | ofPower {text : List σ} {e : Expression α} (h : Derives written .power text e) :
      Derives written .unary text e
  /-- A unary is a product of one. -/
  | ofUnary {text : List σ} {e : Expression α} (h : Derives written .unary text e) :
      Derives written .product text e
  /-- A product is a sum of one. -/
  | ofProduct {text : List σ} {e : Expression α} (h : Derives written .product text e) :
      Derives written .sum text e

namespace Derives

variable {written : Token α → List σ → Prop} {level : Level} {text : List σ} {e : Expression α}

/-- A list that is derived at some level is derived as a sum. -/
theorem toSum (h : Derives written level text e) : Derives written .sum text e := by
  cases level with
  | sum => exact h
  | product => exact .ofProduct h
  | unary => exact .ofProduct (.ofUnary h)
  | power => exact .ofProduct (.ofUnary (.ofPower h))
  | primary => exact .ofProduct (.ofUnary (.ofPower (.ofPrimary h)))

/-! ### The ends of a derived list -/

/-- **The first token** of a derived list may be written in another way. -/
theorem exists_first (h : Derives written level text e) :
    ∃ t w tail, text = w ++ tail ∧ written t w ∧
      ∀ w', written t w' → Derives written level (w' ++ tail) e := by
  induction h with
  | literal hw =>
    refine ⟨_, _, [], (List.append_nil _).symm, hw, fun w' hw' => ?_⟩
    rw [List.append_nil]
    exact .literal hw'
  | @group w text v e hw h hv =>
    exact ⟨_, w, text ++ v, rfl, hw, fun w' hw' => .group hw' h hv⟩
  | @power left v right base exponent hl hv hr ih =>
    obtain ⟨t, w, tail, rfl, hw, hrest⟩ := ih
    refine ⟨t, w, tail ++ (v ++ right), List.append_assoc .., hw, fun w' hw' => ?_⟩
    rw [← List.append_assoc]
    exact .power (hrest w' hw') hv hr
  | @negate w text e hw h =>
    exact ⟨_, w, text, rfl, hw, fun w' hw' => .negate hw' h⟩
  | @product left v right el er t' op hl ht hv hr ih =>
    obtain ⟨t, w, tail, rfl, hw, hrest⟩ := ih
    refine ⟨t, w, tail ++ (v ++ right), List.append_assoc .., hw, fun w' hw' => ?_⟩
    rw [← List.append_assoc]
    exact .product (hrest w' hw') ht hv hr
  | @sum left v right el er t' op hl ht hv hr ih =>
    obtain ⟨t, w, tail, rfl, hw, hrest⟩ := ih
    refine ⟨t, w, tail ++ (v ++ right), List.append_assoc .., hw, fun w' hw' => ?_⟩
    rw [← List.append_assoc]
    exact .sum (hrest w' hw') ht hv hr
  | ofPrimary h ih =>
    obtain ⟨t, w, tail, heq, hw, hrest⟩ := ih
    exact ⟨t, w, tail, heq, hw, fun w' hw' => .ofPrimary (hrest w' hw')⟩
  | ofPower h ih =>
    obtain ⟨t, w, tail, heq, hw, hrest⟩ := ih
    exact ⟨t, w, tail, heq, hw, fun w' hw' => .ofPower (hrest w' hw')⟩
  | ofUnary h ih =>
    obtain ⟨t, w, tail, heq, hw, hrest⟩ := ih
    exact ⟨t, w, tail, heq, hw, fun w' hw' => .ofUnary (hrest w' hw')⟩
  | ofProduct h ih =>
    obtain ⟨t, w, tail, heq, hw, hrest⟩ := ih
    exact ⟨t, w, tail, heq, hw, fun w' hw' => .ofProduct (hrest w' hw')⟩

/-- **The last token** of a derived list may be written in another way. -/
theorem exists_last (h : Derives written level text e) :
    ∃ t init w, text = init ++ w ∧ written t w ∧
      ∀ w', written t w' → Derives written level (init ++ w') e := by
  induction h with
  | literal hw => exact ⟨_, [], _, rfl, hw, fun w' hw' => .literal hw'⟩
  | @group v text w e hv h hw =>
    refine ⟨_, v ++ text, w, (List.append_assoc ..).symm, hw, fun w' hw' => ?_⟩
    rw [List.append_assoc]
    exact .group hv h hw'
  | @power left v right base exponent hl hv hr _ ih =>
    obtain ⟨t, init, w, rfl, hw, hrest⟩ := ih
    refine ⟨t, left ++ (v ++ init), w, by simp only [List.append_assoc], hw, fun w' hw' => ?_⟩
    have := Derives.power hl hv (hrest w' hw')
    simpa only [List.append_assoc] using this
  | @negate v text e hv h ih =>
    obtain ⟨t, init, w, rfl, hw, hrest⟩ := ih
    refine ⟨t, v ++ init, w, (List.append_assoc ..).symm, hw, fun w' hw' => ?_⟩
    rw [List.append_assoc]
    exact .negate hv (hrest w' hw')
  | @product left v right el er t' op hl ht hv hr _ ih =>
    obtain ⟨t, init, w, rfl, hw, hrest⟩ := ih
    refine ⟨t, left ++ (v ++ init), w, by simp only [List.append_assoc], hw, fun w' hw' => ?_⟩
    have := Derives.product hl ht hv (hrest w' hw')
    simpa only [List.append_assoc] using this
  | @sum left v right el er t' op hl ht hv hr _ ih =>
    obtain ⟨t, init, w, rfl, hw, hrest⟩ := ih
    refine ⟨t, left ++ (v ++ init), w, by simp only [List.append_assoc], hw, fun w' hw' => ?_⟩
    have := Derives.sum hl ht hv (hrest w' hw')
    simpa only [List.append_assoc] using this
  | ofPrimary h ih =>
    obtain ⟨t, init, w, heq, hw, hrest⟩ := ih
    exact ⟨t, init, w, heq, hw, fun w' hw' => .ofPrimary (hrest w' hw')⟩
  | ofPower h ih =>
    obtain ⟨t, init, w, heq, hw, hrest⟩ := ih
    exact ⟨t, init, w, heq, hw, fun w' hw' => .ofPower (hrest w' hw')⟩
  | ofUnary h ih =>
    obtain ⟨t, init, w, heq, hw, hrest⟩ := ih
    exact ⟨t, init, w, heq, hw, fun w' hw' => .ofUnary (hrest w' hw')⟩
  | ofProduct h ih =>
    obtain ⟨t, init, w, heq, hw, hrest⟩ := ih
    exact ⟨t, init, w, heq, hw, fun w' hw' => .ofProduct (hrest w' hw')⟩

end Derives

end Expression

/-! ### Lists of tokens -/

namespace Token

variable {α β : Type}

/-- In a list of tokens, a token is written as itself. -/
def IsAlone (t : Token α) (w : List (Token α)) : Prop :=
  w = [t]

theorem isAlone (t : Token α) : t.IsAlone [t] := rfl

/-- The token with its number turned into another one, if it can be. -/
def map? (f : α → Option β) : Token α → Option (Token β)
  | literal a => (f a).map literal
  | plus => some plus
  | minus => some minus
  | times => some times
  | slash => some slash
  | percent => some percent
  | caret => some caret
  | opening => some opening
  | closing => some closing

theorem map?_of_ne_literal {f : α → Option β} {t : Token α} (ht : ∀ a, t ≠ .literal a) :
    ∃ t' : Token β, map? f t = some t' ∧
      Expression.sumOperator? t' = Expression.sumOperator? t ∧
      Expression.productOperator? t' = Expression.productOperator? t := by
  cases t with
  | literal a => exact absurd rfl (ht a)
  | _ => exact ⟨_, rfl, rfl, rfl⟩

theorem mapM_map?_some (ts : List (Token α)) : ts.mapM (map? some) = some ts := by
  induction ts with
  | nil => rfl
  | cons t ts ih => cases t <;> simp [map?, ih]

theorem mapM_append_eq_some {f : α → Option β} {left right : List α} {found : List β}
    (h : (left ++ right).mapM f = some found) :
    ∃ l r, left.mapM f = some l ∧ right.mapM f = some r ∧ found = l ++ r := by
  cases hl : left.mapM f with
  | none => simp [hl] at h
  | some l =>
    cases hr : right.mapM f with
    | none => simp [hl, hr] at h
    | some r => exact ⟨l, r, rfl, rfl, by simpa [hl, hr] using h.symm⟩

theorem mapM_singleton_append_eq_some {f : α → Option β} {a : α} {b : β} {right : List α}
    {found : List β} (h : ([a] ++ right).mapM f = some found) (ha : f a = some b) :
    ∃ r, right.mapM f = some r ∧ found = [b] ++ r := by
  obtain ⟨l, r, hl, hr, rfl⟩ := mapM_append_eq_some h
  obtain rfl : [b] = l := by simpa [ha] using hl
  exact ⟨r, hr, rfl⟩

end Token

namespace Expression

variable {α β : Type} {f : α → Option β}

/-- The expression with its numbers turned into others, if all of them can be. -/
def map? (f : α → Option β) : Expression α → Option (Expression β)
  | literal a => (f a).map literal
  | negate e => (map? f e).map negate
  | binary op left right => do
    let l ← map? f left
    let r ← map? f right
    return binary op l r

/-- **Turning the numbers of the tokens into others** turns those of the expression into others. -/
theorem Derives.map? {level : Level} {ts : List (Token α)} {ts' : List (Token β)}
    {e : Expression α} (h : Derives Token.IsAlone level ts e)
    (hts : ts.mapM (Token.map? f) = some ts') :
    ∃ e', e.map? f = some e' ∧ Derives Token.IsAlone level ts' e' := by
  induction h generalizing ts' with
  | @literal a _ hw =>
    obtain rfl := hw
    cases ha : f a with
    | none => simp [Token.map?, ha] at hts
    | some b =>
      obtain rfl : [Token.literal b] = ts' := by simpa [Token.map?, ha] using hts
      exact ⟨.literal b, by simp [Expression.map?, ha], .literal (Token.isAlone _)⟩
  | group hw h hw' ih =>
    obtain rfl := hw
    obtain rfl := hw'
    obtain ⟨_, htail, rfl⟩ := Token.mapM_singleton_append_eq_some hts rfl
    obtain ⟨_, _, htext, hclosing, rfl⟩ := Token.mapM_append_eq_some htail
    obtain ⟨e', he, hderives⟩ := ih htext
    obtain rfl := Option.some.inj hclosing
    exact ⟨e', he, .group (Token.isAlone _) hderives (Token.isAlone _)⟩
  | power hl hw hr ihl ihr =>
    obtain rfl := hw
    obtain ⟨_, _, hleft, htail, rfl⟩ := Token.mapM_append_eq_some hts
    obtain ⟨_, hright, rfl⟩ := Token.mapM_singleton_append_eq_some htail rfl
    obtain ⟨base, hbase, hl⟩ := ihl hleft
    obtain ⟨exponent, hexponent, hr⟩ := ihr hright
    exact ⟨_, by simp [Expression.map?, hbase, hexponent], .power hl (Token.isAlone _) hr⟩
  | negate hw h ih =>
    obtain rfl := hw
    obtain ⟨_, htext, rfl⟩ := Token.mapM_singleton_append_eq_some hts rfl
    obtain ⟨e', he, hderives⟩ := ih htext
    exact ⟨_, by simp [Expression.map?, he], .negate (Token.isAlone _) hderives⟩
  | @product _ _ _ _ _ t op hl ht hw hr ihl ihr =>
    obtain rfl := hw
    have hne : ∀ a, t ≠ .literal a := by
      rintro a rfl
      exact absurd ht (by simp [productOperator?])
    obtain ⟨t', hmap, -, ht'⟩ := Token.map?_of_ne_literal (f := f) hne
    obtain ⟨_, _, hleft, htail, rfl⟩ := Token.mapM_append_eq_some hts
    obtain ⟨_, hright, rfl⟩ := Token.mapM_singleton_append_eq_some htail hmap
    obtain ⟨el, hel, hl⟩ := ihl hleft
    obtain ⟨er, her, hr⟩ := ihr hright
    exact ⟨_, by simp [Expression.map?, hel, her],
      .product hl (ht'.trans ht) (Token.isAlone _) hr⟩
  | @sum _ _ _ _ _ t op hl ht hw hr ihl ihr =>
    obtain rfl := hw
    have hne : ∀ a, t ≠ .literal a := by
      rintro a rfl
      exact absurd ht (by simp [sumOperator?])
    obtain ⟨t', hmap, ht', -⟩ := Token.map?_of_ne_literal (f := f) hne
    obtain ⟨_, _, hleft, htail, rfl⟩ := Token.mapM_append_eq_some hts
    obtain ⟨_, hright, rfl⟩ := Token.mapM_singleton_append_eq_some htail hmap
    obtain ⟨el, hel, hl⟩ := ihl hleft
    obtain ⟨er, her, hr⟩ := ihr hright
    exact ⟨_, by simp [Expression.map?, hel, her], .sum hl (ht'.trans ht) (Token.isAlone _) hr⟩
  | ofPrimary h ih =>
    obtain ⟨e', he, hderives⟩ := ih hts
    exact ⟨e', he, .ofPrimary hderives⟩
  | ofPower h ih =>
    obtain ⟨e', he, hderives⟩ := ih hts
    exact ⟨e', he, .ofPower hderives⟩
  | ofUnary h ih =>
    obtain ⟨e', he, hderives⟩ := ih hts
    exact ⟨e', he, .ofUnary hderives⟩
  | ofProduct h ih =>
    obtain ⟨e', he, hderives⟩ := ih hts
    exact ⟨e', he, .ofProduct hderives⟩

end Expression

end WireCodec
