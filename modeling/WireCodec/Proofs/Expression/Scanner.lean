import WireCodec.Proofs.Expression.Parser

/-!
# The scanner of expressions and the grammar

The grammar derives a text as well as a list of tokens: a token is then written as its characters
with any blanks around them (`WireCodec.Token.IsWritten`). What a number looks like is left open
once more, `spells`.

A number has no mark at its end. So a scanner finds the numbers of a derived text only if it stops
where the grammar does, and there the text goes on with an operator or with a closing parenthesis,
if at all (`WireCodec.Token.IsClosed`). A scanner with this property cuts a derived text into tokens
from which the same expression is derived (`WireCodec.Expression.Derives.exists_tokens`). It may
know some of the numbers only, as the scanner of expressions without names does: then the tokens
are found exactly if it knows all numbers in the text.
-/

namespace WireCodec

namespace Token

variable {α β : Type} {number? : List Char → Option (β × List Char)} {c : Char}
  {text rest : List Char} {count : Nat}

/-! ### The number of steps -/

/-- **A reader of numbers goes on**: there is less text behind a number than before. -/
def Shortens (number? : List Char → Option (β × List Char)) : Prop :=
  ∀ text b rest, number? text = some (b, rest) → rest.length < text.length

/-- More steps than the text has characters make no difference. -/
theorem scanUpTo?_eq (hnumber : Shortens number?) (h : text.length ≤ count) :
    scanUpTo? number? count text = scanWith? number? text := by
  -- The induction is on the length of the text, as a number takes several characters away.
  obtain ⟨n, hn⟩ : ∃ n, text.length = n := ⟨_, rfl⟩
  induction n using Nat.strongRecOn generalizing text count with
  | _ n ih =>
    cases text with
    | nil => cases count <;> rfl
    | cons c text =>
      obtain ⟨count, rfl⟩ : ∃ k, count = k + 1 := ⟨count - 1, by simp at h; omega⟩
      have htext : text.length < n := by simp at hn; omega
      have hle : text.length ≤ count := by simpa using h
      rw [scanWith?, List.length_cons, scanUpTo?, scanUpTo?, ih _ htext hle rfl,
        ih _ htext (Nat.le_refl _) rfl]
      cases hfound : number? (c :: text) with
      | none => rfl
      | some found =>
        have hlt : found.2.length < text.length + 1 := hnumber _ found.1 found.2 hfound
        simp only
        rw [ih found.2.length (by simp at hn; omega) (by omega) rfl,
          ih found.2.length (by simp at hn; omega) (by omega) rfl]

/-! ### Operators and parentheses -/

/-- The character of an operator or a parenthesis. -/
def signOf? : Token α → Option Char
  | .literal _ => none
  | .plus => some '+'
  | .minus => some '-'
  | .times => some '*'
  | .slash => some '/'
  | .percent => some '%'
  | .caret => some '^'
  | .opening => some '('
  | .closing => some ')'

/-- The tokens of single characters are the operators and the parentheses. -/
theorem ofChar?_eq_some_iff {t : Token α} : ofChar? c = some t ↔ signOf? t = some c := by
  constructor
  · intro h
    unfold ofChar? at h
    split at h
    case h_9 => exact absurd h (by simp)
    all_goals
      obtain rfl := Option.some.inj h
      rfl
  · intro h
    cases t
    case literal => exact absurd h (by simp [signOf?])
    all_goals
      obtain rfl := Option.some.inj h
      rfl

theorem not_isBlank_of_ofChar? {t : Token α} (h : ofChar? c = some t) : isBlank c = false := by
  rw [ofChar?_eq_some_iff] at h
  cases t <;> cases h <;> rfl

theorem ofChar?_map? {f : α → Option β} {t : Token α} (h : ofChar? c = some t) :
    ∃ t' : Token β, map? f t = some t' ∧ ofChar? c = some t' := by
  rw [ofChar?_eq_some_iff] at h
  cases t <;> cases h <;> exact ⟨_, rfl, rfl⟩

/-! ### Equations of the scanner -/

@[simp] theorem scanWith?_nil : scanWith? number? [] = some [] := rfl

theorem scanWith?_blank (hc : isBlank c = true) :
    scanWith? number? (c :: rest) = scanWith? number? rest := by
  rw [scanWith?, List.length_cons, scanUpTo?, if_pos hc, scanWith?]

theorem scanWith?_blanks {blanks : List Char} (h : ∀ c ∈ blanks, isBlank c = true) :
    scanWith? number? (blanks ++ rest) = scanWith? number? rest := by
  induction blanks with
  | nil => rfl
  | cons c blanks ih =>
    obtain ⟨hc, hothers⟩ := List.forall_mem_cons.mp h
    rw [List.cons_append, scanWith?_blank hc, ih hothers]

theorem scanWith?_sign {t : Token β} (hc : ofChar? c = some t) :
    scanWith? number? (c :: rest) = (scanWith? number? rest).map (t :: ·) := by
  rw [scanWith?, List.length_cons, scanUpTo?, not_isBlank_of_ofChar? hc, if_neg Bool.false_ne_true,
    hc, scanWith?]

theorem scanWith?_number (hnumber : Shortens number?) (hblank : isBlank c = false)
    (hc : (ofChar? c : Option (Token β)) = none) :
    scanWith? number? (c :: rest) = (number? (c :: rest)).bind fun found =>
      (scanWith? number? found.2).map (.literal found.1 :: ·) := by
  rw [scanWith?, List.length_cons, scanUpTo?, hblank, if_neg Bool.false_ne_true, hc]
  cases hfound : number? (c :: rest) with
  | none => rfl
  | some found =>
    have hlt := hnumber _ found.1 found.2 hfound
    simp only [Option.bind_some]
    rw [scanUpTo?_eq hnumber (Nat.le_of_lt_succ hlt)]

/-! ### Tokens as texts -/

/-- **A text is a token with blanks around it**; `spells` says how numbers are written. -/
inductive IsWritten (spells : α → List Char → Prop) : Token α → List Char → Prop
  /-- A number with blanks around it. -/
  | literal {before w after : List Char} {a : α} (hbefore : ∀ c ∈ before, isBlank c = true)
      (hw : spells a w) (hafter : ∀ c ∈ after, isBlank c = true) :
      IsWritten spells (.literal a) (before ++ (w ++ after))
  /-- An operator or a parenthesis with blanks around it. -/
  | sign {before after : List Char} {c : Char} {t : Token α}
      (hbefore : ∀ c ∈ before, isBlank c = true) (hc : ofChar? c = some t)
      (hafter : ∀ c ∈ after, isBlank c = true) : IsWritten spells t (before ++ c :: after)

/-- **The text is none or one that a number may stand before**: behind blanks there is an operator
or a closing parenthesis, if anything. -/
def IsClosed (text : List Char) : Prop :=
  ∀ c ∈ (text.dropWhile isBlank).head?, ∃ t : Token Empty, ofChar? c = some t ∧ t ≠ .opening

theorem isClosed_nil : IsClosed [] := by
  simp [IsClosed]

theorem isClosed_blanks {blanks : List Char} (h : ∀ c ∈ blanks, isBlank c = true)
    (hrest : IsClosed rest) : IsClosed (blanks ++ rest) := by
  unfold IsClosed
  rwa [List.dropWhile_append_of_pos h]

theorem isClosed_sign {t : Token α} (hc : ofChar? c = some t) (ht : t ≠ .opening) :
    IsClosed (c :: rest) := by
  intro c' hc'
  rw [List.dropWhile_cons_of_neg (by rw [not_isBlank_of_ofChar? hc]; simp)] at hc'
  obtain rfl : c = c' := by simpa using hc'
  rw [ofChar?_eq_some_iff] at hc
  cases t
  case literal => exact absurd hc (by simp [signOf?])
  case opening => exact absurd rfl ht
  all_goals
    obtain rfl := Option.some.inj hc
    exact ⟨_, rfl, nofun⟩

/-- **A reader of numbers agrees with the way they are written**: it reads a number that the text
behind it closes, and makes of it what `f` does, or fails if `f` does. -/
structure Agrees (number? : List Char → Option (β × List Char)) (f : α → Option β)
    (spells : α → List Char → Prop) : Prop where
  /-- The reader goes on. -/
  shortens : Shortens number?
  /-- The first character of a number is that of no other token. -/
  starts : ∀ a w, spells a w →
    ∃ c tail, w = c :: tail ∧ isBlank c = false ∧ (ofChar? c : Option (Token β)) = none
  /-- The reader finds a number at its end. -/
  reads : ∀ a w rest, spells a w → IsClosed rest → number? (w ++ rest) = (f a).map (·, rest)

/-- **A text is cut into these tokens**, whatever text closes it; the scanner knows those numbers
that `f` is defined on. -/
def ScansAs (number? : List Char → Option (β × List Char)) (f : α → Option β) (text : List Char)
    (ts : List (Token α)) : Prop :=
  ∀ rest, IsClosed rest → scanWith? number? (text ++ rest) =
    (ts.mapM (map? f)).bind fun found => (scanWith? number? rest).map (found ++ ·)

section Scans

variable {f : α → Option β} {spells : α → List Char → Prop} {t : Token α} {ts ts' : List (Token α)}
  {w text' : List Char}

theorem scansAs_nil : ScansAs number? f [] [] := by
  intro rest _
  simp

theorem scansAs_append (h : ScansAs number? f text ts) (h' : ScansAs number? f text' ts')
    (hclosed : ∀ rest, IsClosed rest → IsClosed (text' ++ rest)) :
    ScansAs number? f (text ++ text') (ts ++ ts') := by
  intro rest hrest
  rw [List.append_assoc, h _ (hclosed rest hrest), h' rest hrest]
  cases hts : ts.mapM (map? f) <;> cases hts' : ts'.mapM (map? f) <;>
    simp [hts, hts', Function.comp_def]

theorem scansAs_literal {a : α} (hagrees : Agrees number? f spells)
    (hw : IsWritten spells (.literal a) w) : ScansAs number? f w [.literal a] := by
  intro rest hrest
  cases hw with
  | @literal before w after _ hbefore hw hafter =>
    obtain ⟨c, tail, rfl, hblank, hc⟩ := hagrees.starts _ _ hw
    -- What closes the number is the blanks behind it together with the rest.
    have hread := hagrees.reads _ _ (after ++ rest) hw (isClosed_blanks hafter hrest)
    rw [List.append_assoc, List.append_assoc, scanWith?_blanks hbefore]
    rw [List.cons_append] at hread ⊢
    rw [scanWith?_number hagrees.shortens hblank hc, hread]
    cases hfa : f a <;> simp [map?, hfa, scanWith?_blanks hafter]
  | sign _ hc _ => exact absurd (ofChar?_eq_some_iff.mp hc) (by simp [signOf?])

theorem scansAs_sign (hw : IsWritten spells t w) (ht : ∀ a, t ≠ .literal a)
    (h : ScansAs number? f text ts) : ScansAs number? f (w ++ text) (t :: ts) := by
  intro rest hrest
  cases hw with
  | literal => exact absurd rfl (ht _)
  | @sign before after c _ hbefore hc hafter =>
    obtain ⟨t', hmap, hc'⟩ := ofChar?_map? (f := f) hc
    rw [List.append_assoc, List.append_assoc, scanWith?_blanks hbefore, List.cons_append,
      scanWith?_sign hc', scanWith?_blanks hafter, h rest hrest]
    cases hts : ts.mapM (map? f) <;> simp [hmap, hts, Function.comp_def]

theorem isClosed_written (hw : IsWritten spells t w) (ht : ∀ a, t ≠ .literal a)
    (hopening : t ≠ .opening) : IsClosed (w ++ rest) := by
  cases hw with
  | literal => exact absurd rfl (ht _)
  | @sign before after c _ hbefore hc hafter =>
    rw [List.append_assoc]
    exact isClosed_blanks hbefore (isClosed_sign hc hopening)

end Scans

end Token

namespace Expression

open Token

variable {α β : Type} {number? : List Char → Option (β × List Char)} {f : α → Option β}
  {spells : α → List Char → Prop} {level : Level} {text : List Char} {e : Expression α}

/-- **A derived text is cut into tokens from which the same expression is derived.** -/
theorem Derives.exists_tokens (hagrees : Agrees number? f spells)
    (h : Derives (IsWritten spells) level text e) :
    ∃ ts, Derives IsAlone level ts e ∧ ScansAs number? f text ts := by
  induction h with
  | literal hw => exact ⟨_, .literal (isAlone _), scansAs_literal hagrees hw⟩
  | @group w text w' _ hw h hw' ih =>
    obtain ⟨ts, hts, hscan⟩ := ih
    have hclosing : ScansAs number? f (w' ++ []) [.closing] :=
      scansAs_sign hw' (by simp) scansAs_nil
    rw [List.append_nil] at hclosing
    have hinner := scansAs_append hscan hclosing fun rest _ =>
      isClosed_written hw' (by simp) (by simp)
    exact ⟨_, .group (isAlone _) hts (isAlone _), scansAs_sign hw (by simp) hinner⟩
  | power hl hw hr ihl ihr =>
    obtain ⟨ls, hls, hlscan⟩ := ihl
    obtain ⟨rs, hrs, hrscan⟩ := ihr
    refine ⟨_, .power hls (isAlone _) hrs, ?_⟩
    refine scansAs_append hlscan (scansAs_sign hw (by simp) hrscan) fun rest _ => ?_
    rw [List.append_assoc]
    exact isClosed_written hw (by simp) (by simp)
  | negate hw h ih =>
    obtain ⟨ts, hts, hscan⟩ := ih
    exact ⟨_, .negate (isAlone _) hts, scansAs_sign hw (by simp) hscan⟩
  | @product _ _ _ _ _ t _ hl ht hw hr ihl ihr =>
    obtain ⟨ls, hls, hlscan⟩ := ihl
    obtain ⟨rs, hrs, hrscan⟩ := ihr
    refine ⟨_, .product hls ht (isAlone _) hrs, ?_⟩
    have hsign : (∀ a, t ≠ .literal a) ∧ t ≠ .opening := by
      cases t <;> simp_all [productOperator?]
    refine scansAs_append hlscan (scansAs_sign hw hsign.1 hrscan) fun rest _ => ?_
    rw [List.append_assoc]
    exact isClosed_written hw hsign.1 hsign.2
  | @sum _ _ _ _ _ t _ hl ht hw hr ihl ihr =>
    obtain ⟨ls, hls, hlscan⟩ := ihl
    obtain ⟨rs, hrs, hrscan⟩ := ihr
    refine ⟨_, .sum hls ht (isAlone _) hrs, ?_⟩
    have hsign : (∀ a, t ≠ .literal a) ∧ t ≠ .opening := by
      cases t <;> simp_all [sumOperator?]
    refine scansAs_append hlscan (scansAs_sign hw hsign.1 hrscan) fun rest _ => ?_
    rw [List.append_assoc]
    exact isClosed_written hw hsign.1 hsign.2
  | ofPrimary h ih =>
    obtain ⟨ts, hts, hscan⟩ := ih
    exact ⟨ts, .ofPrimary hts, hscan⟩
  | ofPower h ih =>
    obtain ⟨ts, hts, hscan⟩ := ih
    exact ⟨ts, .ofPower hts, hscan⟩
  | ofUnary h ih =>
    obtain ⟨ts, hts, hscan⟩ := ih
    exact ⟨ts, .ofUnary hts, hscan⟩
  | ofProduct h ih =>
    obtain ⟨ts, hts, hscan⟩ := ih
    exact ⟨ts, .ofProduct hts, hscan⟩

/-- **What a reader finds in a derived text** is the derived expression, with its numbers turned
into those that the reader knows. -/
theorem Derives.map?_of_scan (hagrees : Agrees number? f spells)
    (h : Derives (IsWritten spells) .sum text e) {e' : Expression β}
    (hread : (scanWith? number? text).bind ofTokens? = some e') : e.map? f = some e' := by
  obtain ⟨ts, hts, hscan⟩ := h.exists_tokens hagrees
  have hall := hscan [] isClosed_nil
  rw [List.append_nil] at hall
  rw [hall] at hread
  cases hmap : ts.mapM (Token.map? f) with
  | none => simp [hmap] at hread
  | some ts' =>
    obtain ⟨e'', he'', hts'⟩ := hts.map? hmap
    rw [hmap] at hread
    simp only [scanWith?_nil, Option.map_some, Option.bind_some, List.append_nil] at hread
    rw [ofTokens?_eq_some_iff.mpr hts', Option.some.injEq] at hread
    exact hread ▸ he''

/-- **A text is at most one expression.** -/
theorem Derives.unique {number? : List Char → Option (α × List Char)}
    (hagrees : Agrees number? some spells) {e' : Expression α}
    (h : Derives (IsWritten spells) .sum text e) (h' : Derives (IsWritten spells) .sum text e') :
    e = e' := by
  obtain ⟨ts, hts, hscan⟩ := h.exists_tokens hagrees
  obtain ⟨ts', hts', hscan'⟩ := h'.exists_tokens hagrees
  have heq := (hscan [] isClosed_nil).symm.trans (hscan' [] isClosed_nil)
  obtain rfl : ts = ts' := by simpa [mapM_map?_some] using heq
  exact derives_unique hts hts'

end Expression

end WireCodec
