import WireCodec.BitField.CStatement
import WireCodec.Proofs.Expression.Digits

/-!
# Reading C statements

The part of C that the statements for bit fields are written in, read as C reads it
(`WireCodec.CStatement.parseAll?`). A text is cut into tokens, each as long as it can be, with
blanks and line ends allowed between them. From the tightest to the loosest,

* a **primary** is a variable, an array element, an expression in parentheses, or one that is
  converted to a byte;
* a **shift** is a primary with any number of shifts by constants behind it;
* a **conjunction** is a shift with any number of `& constant` behind it;
* an **expression** is one conjunction, or two joined by `|`.

A text of C that needs more than that is not read at all; it is never read differently. So what the
reader finds is what C finds, and it finds the statements that a text was made from
(`WireCodec.CStatement.parseAll?_renderAll`), provided that they nest as these rules want
(`WireCodec.CExpression.IsReadable`): nothing on the way from the tree to the text and back
depends on parentheses that are not there.
-/

namespace WireCodec

/-! ### Tokens -/

/-- **A token of C**, as far as statements for bit fields need them. -/
inductive CToken
  /-- A name that can be given to a variable. -/
  | name (text : String)
  /-- A number. -/
  | number (value : Nat)
  /-- The name `uint8_t` of a type. -/
  | byteType
  /-- The sign `(`. -/
  | opening
  /-- The sign `)`. -/
  | closing
  /-- The sign `[`. -/
  | openingBracket
  /-- The sign `]`. -/
  | closingBracket
  /-- The sign `<<`. -/
  | shiftLeft
  /-- The sign `>>`. -/
  | shiftRight
  /-- The sign `&`. -/
  | ampersand
  /-- The sign `|`. -/
  | bar
  /-- The sign `=`. -/
  | equals
  /-- The sign `|=`. -/
  | barEquals
  /-- The sign `;`. -/
  | semicolon
deriving DecidableEq, Repr

namespace CToken

/-- The words that C keeps for itself. -/
def keywords : List String :=
  ["auto", "break", "case", "char", "const", "continue", "default", "do", "double", "else", "enum",
    "extern", "float", "for", "goto", "if", "inline", "int", "long", "register", "restrict",
    "return", "short", "signed", "sizeof", "static", "struct", "switch", "typedef", "union",
    "unsigned", "void", "volatile", "while", "_Alignas", "_Alignof", "_Atomic", "_Bool",
    "_Complex", "_Generic", "_Imaginary", "_Noreturn", "_Static_assert", "_Thread_local"]

/-- The characters of names and numbers. -/
def isWordChar (c : Char) : Bool :=
  c.isAlphanum || c == '_'

/-- **A name that can be given to a variable**: letters, digits and underscores, no digit in front,
and no word with a meaning of its own. -/
def isName (word : List Char) : Bool :=
  word.all isWordChar && word.head?.any (!·.isDigit) &&
    word != ['u', 'i', 'n', 't', '8', '_', 't'] && !keywords.contains (String.ofList word)

/-- The number that a word spells, in decimal digits without a zero in front or in hexadecimal
ones behind a `0x`. -/
def numberOf? : List Char → Option Nat
  | [] => none
  | ['0'] => some 0
  | '0' :: mark :: digits =>
    if (mark = 'x' ∨ mark = 'X') ∧ digits ≠ [] ∧ digits.all isHexDigit then
      some (digitsValue 16 digits)
    else none
  | digits => if digits.all Char.isDigit then some (digitsValue 10 digits) else none

/-- The token of a word. -/
def ofWord? (word : List Char) : Option CToken :=
  if word = ['u', 'i', 'n', 't', '8', '_', 't'] then some byteType
  else if isName word then some (name (String.ofList word))
  else (numberOf? word).map number

/-- The token of a single character that is part of no word. -/
def ofChar? : Char → Option CToken
  | '(' => some opening
  | ')' => some closing
  | '[' => some openingBracket
  | ']' => some closingBracket
  | '&' => some ampersand
  | '|' => some bar
  | '=' => some equals
  | ';' => some semicolon
  | _ => none

/-- The tokens of a word, if it is not empty, and of what is behind it. -/
def wordThen? (word : List Char) (behind : Option (List CToken)) : Option (List CToken) :=
  if word = [] then behind else (ofWord? word).bind fun t => behind.map (t :: ·)

/-- The tokens of a text that goes on from the start of a word. -/
def scanFrom? : (word : List Char) → List Char → Option (List CToken)
  | word, [] => wordThen? word (some [])
  | word, '<' :: '<' :: rest => wordThen? word ((scanFrom? [] rest).map (shiftLeft :: ·))
  | word, '>' :: '>' :: rest => wordThen? word ((scanFrom? [] rest).map (shiftRight :: ·))
  | word, '|' :: '=' :: rest => wordThen? word ((scanFrom? [] rest).map (barEquals :: ·))
  | word, c :: rest =>
    if isWordChar c then scanFrom? (word ++ [c]) rest
    else if Token.isBlank c then wordThen? word (scanFrom? [] rest)
    else wordThen? word ((ofChar? c).bind fun t => (scanFrom? [] rest).map (t :: ·))

/-- **The tokens of a text**, if it has nothing but tokens and blanks in it. -/
def scan? (text : List Char) : Option (List CToken) :=
  scanFrom? [] text

end CToken

/-! ### Reading tokens -/

namespace CExpression

open CToken

/-- A reader takes an expression from the start of a list of tokens. -/
abbrev Reader : Type :=
  List CToken → Option (CExpression × List CToken)

/-- A variable or an array element. -/
def object? : Reader
  | .name array :: .openingBracket :: .number index :: .closingBracket :: rest =>
    some (.element array index, rest)
  | .name x :: rest => some (.name x, rest)
  | _ => none

/-- What is read, closed by a parenthesis. -/
def closed? (inner : Reader) (tokens : List CToken) (kind : CExpression → CExpression) :
    Option (CExpression × List CToken) :=
  match inner tokens with
  | some (e, .closing :: rest) => some (kind e, rest)
  | _ => none

/-- A primary, given how to read an expression. -/
def primary? (inner : Reader) : Reader
  | .opening :: .byteType :: .closing :: .opening :: rest => closed? inner rest .toByte
  | .opening :: rest => closed? inner rest .group
  | tokens => object? tokens

/-- Go on after an expression with as many shifts as there are. -/
def shiftsBehind (e : CExpression) : List CToken → CExpression × List CToken
  | .shiftLeft :: .number amount :: rest => shiftsBehind (e.shiftLeft amount) rest
  | .shiftRight :: .number amount :: rest => shiftsBehind (e.shiftRight amount) rest
  | rest => (e, rest)

/-- Go on after an expression with as many masks as there are. -/
def masksBehind (e : CExpression) : List CToken → CExpression × List CToken
  | .ampersand :: .number mask :: rest => masksBehind (e.bitAnd mask) rest
  | rest => (e, rest)

/-- A shift, given how to read an expression. -/
def shift? (inner : Reader) : Reader := fun tokens =>
  (primary? inner tokens).map fun found => shiftsBehind found.1 found.2

/-- A conjunction, given how to read an expression. -/
def conjunction? (inner : Reader) : Reader := fun tokens =>
  (shift? inner tokens).map fun found => masksBehind found.1 found.2

/-- **An expression.** Parentheses within it are read down to `depth`. -/
def expression? : (depth : Nat) → Reader
  | 0, _ => none
  | depth + 1, tokens =>
    match conjunction? (expression? depth) tokens with
    | some (left, .bar :: rest) =>
      (conjunction? (expression? depth) rest).map fun found => (left.bitOr found.1, found.2)
    | found => found

end CExpression

namespace CStatement

open CToken

/-- The value of an assignment and the semicolon behind it. -/
def assigned? (target : CExpression) (merges : Bool) (tokens : List CToken) :
    Option (CStatement × List CToken) :=
  match CExpression.expression? tokens.length tokens with
  | some (value, .semicolon :: rest) => some (⟨target, merges, value⟩, rest)
  | _ => none

/-- A statement at the start of a list of tokens. -/
def statement? (tokens : List CToken) : Option (CStatement × List CToken) :=
  match CExpression.object? tokens with
  | some (target, .equals :: rest) => assigned? target false rest
  | some (target, .barEquals :: rest) => assigned? target true rest
  | _ => none

/-- The statements that a list of tokens is, if they are no more than `count`. -/
def program? : (count : Nat) → List CToken → Option (List CStatement)
  | _, [] => some []
  | 0, _ :: _ => none
  | count + 1, t :: tokens =>
    match statement? (t :: tokens) with
    | some (s, rest) => (program? count rest).map (s :: ·)
    | none => none

/-- **The statements that a text is**, if it is nothing but statements. -/
def parseAll? (text : String) : Option (List CStatement) :=
  (scan? text.toList).bind fun tokens => program? tokens.length tokens

end CStatement

/-! ### The tokens of trees -/

namespace CExpression

/-- The tokens of an expression. -/
def tokens : CExpression → List CToken
  | name x => [.name x]
  | element array index => [.name array, .openingBracket, .number index, .closingBracket]
  | group e => .opening :: e.tokens ++ [.closing]
  | shiftLeft e amount => e.tokens ++ [.shiftLeft, .number amount]
  | shiftRight e amount => e.tokens ++ [.shiftRight, .number amount]
  | bitAnd e mask => e.tokens ++ [.ampersand, .number mask]
  | bitOr left right => left.tokens ++ .bar :: right.tokens
  | toByte e => [.opening, .byteType, .closing, .opening] ++ e.tokens ++ [.closing]

/-- An expression is a shift, or tighter. -/
def IsShift : CExpression → Prop
  | bitAnd _ _ | bitOr _ _ => False
  | _ => True

/-- An expression is a conjunction, or tighter. -/
def IsConjunction : CExpression → Prop
  | bitOr _ _ => False
  | _ => True

/-- **An expression nests as its text says**: its names are names, and no operand binds more loosely
than its operator lets it. -/
def IsReadable : CExpression → Prop
  | name x => CToken.isName x.toList = true
  | element array _ => CToken.isName array.toList = true
  | group e | toByte e => e.IsReadable
  | shiftLeft e _ | shiftRight e _ => e.IsReadable ∧ e.IsShift
  | bitAnd e _ => e.IsReadable ∧ e.IsConjunction
  | bitOr left right =>
    (left.IsReadable ∧ left.IsConjunction) ∧ right.IsReadable ∧ right.IsConjunction

/-- How deep the parentheses of an expression nest. -/
def depth : CExpression → Nat
  | name _ | element _ _ => 0
  | group e | toByte e => e.depth + 1
  | shiftLeft e _ | shiftRight e _ | bitAnd e _ => e.depth
  | bitOr left right => max left.depth right.depth

theorem IsShift.isConjunction {e : CExpression} (h : e.IsShift) : e.IsConjunction := by
  cases e with
  | bitOr => exact h
  | _ => trivial

/-- A shift by zero is left out, and a shift may stand where one is left out. -/
theorem isReadable_shiftedRight {e : CExpression} (h : e.IsReadable) (hshift : e.IsShift)
    (amount : Nat) : (e.shiftedRight amount).IsReadable ∧ (e.shiftedRight amount).IsShift := by
  unfold shiftedRight
  split
  · exact ⟨h, hshift⟩
  · exact ⟨⟨h, hshift⟩, trivial⟩

theorem isReadable_shiftedLeft {e : CExpression} (h : e.IsReadable) (hshift : e.IsShift)
    (amount : Nat) : (e.shiftedLeft amount).IsReadable ∧ (e.shiftedLeft amount).IsShift := by
  unfold shiftedLeft
  split
  · exact ⟨h, hshift⟩
  · exact ⟨⟨h, hshift⟩, trivial⟩

theorem depth_lt_length_tokens (e : CExpression) : e.depth < e.tokens.length := by
  induction e with
  | name => simp [depth, tokens]
  | element => simp [depth, tokens]
  | group e ih => simp [depth, tokens]; omega
  | shiftLeft e _ ih => simp [depth, tokens]; omega
  | shiftRight e _ ih => simp [depth, tokens]; omega
  | bitAnd e _ ih => simp [depth, tokens]; omega
  | bitOr left right ihl ihr => simp [depth, tokens]; omega
  | toByte e ih => simp [depth, tokens]; omega

end CExpression

namespace CStatement

/-- The tokens of a statement. -/
def tokens (s : CStatement) : List CToken :=
  s.target.tokens ++ (if s.merges then .barEquals else .equals) :: (s.value.tokens ++ [.semicolon])

/-- **A statement is readable**: it assigns to a variable or to an array element, and its value
nests as its text says. -/
structure IsReadable (s : CStatement) : Prop where
  /-- What is assigned to is a variable or an array element. -/
  isObject : (∃ x, s.target = .name x) ∨ ∃ array index, s.target = .element array index
  /-- The name of what is assigned to is a name. -/
  target : s.target.IsReadable
  /-- The value nests as its text says. -/
  value : s.value.IsReadable

end CStatement

/-! ### Scanning the text of a tree -/

namespace CToken

variable {w text text' rest : List Char} {t : CToken} {ts ts' : List CToken} {c : Char}

/-- **A text is cut into these tokens**, if it does not go on in the middle of a word. -/
def ScansAs (text : List Char) (ts : List CToken) : Prop :=
  ∀ rest, (∀ c ∈ rest.head?, isWordChar c = false) →
    scanFrom? [] (text ++ rest) = (scanFrom? [] rest).map (ts ++ ·)

/-- **A text is cut into these tokens** however it goes on, and it does not go on with a word
itself. -/
structure IsMark (text : List Char) (ts : List CToken) : Prop where
  /-- The first character is that of no word. -/
  apart : ∃ c rest, text = c :: rest ∧ isWordChar c = false
  /-- The tokens. -/
  scans : ∀ rest, scanFrom? [] (text ++ rest) = (scanFrom? [] rest).map (ts ++ ·)

theorem scanFrom?_wordChar (hc : isWordChar c = true) (word : List Char) :
    scanFrom? word (c :: rest) = scanFrom? (word ++ [c]) rest := by
  have hne : ∀ d : Char, isWordChar d = false → c ≠ d := by
    rintro d hd rfl
    rw [hc] at hd
    exact Bool.noConfusion hd
  rw [scanFrom?, if_pos hc]
  · exact fun _ h _ => hne '<' rfl h
  · exact fun _ h _ => hne '>' rfl h
  · exact fun _ h _ => hne '|' rfl h

theorem scanFrom?_append_word (hw : ∀ c ∈ w, isWordChar c = true) (word : List Char) :
    scanFrom? word (w ++ rest) = scanFrom? (word ++ w) rest := by
  induction w generalizing word with
  | nil => simp
  | cons c w ih =>
    obtain ⟨hc, hw⟩ := List.forall_mem_cons.mp hw
    rw [List.cons_append, scanFrom?_wordChar hc, ih hw, List.append_assoc, List.singleton_append]

/-- Where a word ends, its token stands before those of the rest. -/
theorem scanFrom?_of_ends (h : ∀ c ∈ rest.head?, isWordChar c = false) (word : List Char) :
    scanFrom? word rest = wordThen? word (scanFrom? [] rest) := by
  fun_cases scanFrom? word rest with
  | case1 | case2 | case3 | case4 => rfl
  | case5 _ c rest _ _ _ hc => simp [h c rfl] at hc
  | case6 _ c rest hless hgreater hbar hc hblank =>
    rw [scanFrom?, if_neg hc, if_pos hblank]
    · rfl
    all_goals assumption
  | case7 _ c rest hless hgreater hbar hc hblank =>
    rw [scanFrom?, if_neg hc, if_neg hblank]
    · rfl
    all_goals assumption

theorem scansAs_word (hne : w ≠ []) (hw : ∀ c ∈ w, isWordChar c = true)
    (ht : ofWord? w = some t) : ScansAs w [t] := by
  intro rest hrest
  rw [scanFrom?_append_word hw, List.nil_append, scanFrom?_of_ends hrest, wordThen?, if_neg hne,
    ht]
  rfl

theorem IsMark.scansAs (h : IsMark text ts) : ScansAs text ts := fun rest _ => h.scans rest

theorem IsMark.append (h : IsMark text ts) (h' : IsMark text' ts') :
    IsMark (text ++ text') (ts ++ ts') := by
  refine ⟨?_, fun rest => ?_⟩
  · obtain ⟨c, rest, rfl, hc⟩ := h.apart
    exact ⟨c, rest ++ text', rfl, hc⟩
  · rw [List.append_assoc, h.scans, h'.scans]
    simp [Function.comp_def]

theorem ScansAs.append_mark (h : ScansAs text ts) (hmark : IsMark text' ts') (rest : List Char) :
    scanFrom? [] (text ++ (text' ++ rest)) = (scanFrom? [] rest).map (ts ++ ts' ++ ·) := by
  have hapart : ∀ c ∈ (text' ++ rest).head?, isWordChar c = false := by
    obtain ⟨c, behind, rfl, hc⟩ := hmark.apart
    simpa using hc
  rw [h _ hapart, hmark.scans]
  simp [Function.comp_def]

/-- Texts stand behind each other with a mark between them. -/
theorem ScansAs.join {mark : List Char} {us : List CToken} (h : ScansAs text ts)
    (hmark : IsMark mark us) (h' : ScansAs text' ts') :
    ScansAs (text ++ (mark ++ text')) (ts ++ (us ++ ts')) := by
  intro rest hrest
  rw [List.append_assoc, List.append_assoc, h.append_mark hmark, h' rest hrest]
  simp [Function.comp_def]

/-- A text between two marks is a mark. -/
theorem ScansAs.enclose {before behind : List Char} {us us' : List CToken} (h : ScansAs text ts)
    (hbefore : IsMark before us) (hbehind : IsMark behind us') :
    IsMark (before ++ (text ++ behind)) (us ++ (ts ++ us')) := by
  refine ⟨?_, fun rest => ?_⟩
  · obtain ⟨c, rest, rfl, hc⟩ := hbefore.apart
    exact ⟨c, rest ++ (text ++ behind), rfl, hc⟩
  · rw [List.append_assoc, List.append_assoc, hbefore.scans, h.append_mark hbehind]
    simp [Function.comp_def]

/-! #### Words -/

theorem scansAs_name {x : String} (h : isName x.toList = true) : ScansAs x.toList [.name x] := by
  have hparts := h
  simp only [isName, Bool.and_eq_true, List.all_eq_true, bne_iff_ne] at hparts
  obtain ⟨⟨⟨hword, hhead⟩, hbyte⟩, -⟩ := hparts
  refine scansAs_word (by rintro hnil; simp [hnil] at hhead) hword ?_
  rw [ofWord?, if_neg hbyte, if_pos h, String.ofList_toList]

/-- A word that starts with a digit is a number. -/
theorem scansAs_number {n : Nat} (hword : ∀ c ∈ w, isWordChar c = true)
    (hhead : w.head?.any Char.isDigit = true) (hn : numberOf? w = some n) :
    ScansAs w [.number n] := by
  cases w with
  | nil => simp at hhead
  | cons c w =>
    have hdigit : c.isDigit = true := by simpa using hhead
    have hbyte : c :: w ≠ ['u', 'i', 'n', 't', '8', '_', 't'] := by
      rintro heq
      obtain rfl := (List.cons.inj heq).1
      exact absurd hdigit (by decide)
    refine scansAs_word (by simp) hword ?_
    rw [ofWord?, if_neg hbyte, if_neg (by simp [isName, hdigit]), hn, Option.map_some]

theorem isWordChar_of_isDigit (h : c.isDigit = true) : isWordChar c = true := by
  change (c.isAlpha || c.isDigit || c == '_') = true
  rw [h, Bool.or_true, Bool.true_or]

theorem numberOf?_of_isDigit (hne : w ≠ []) (hdigit : ∀ c ∈ w, c.isDigit = true)
    (hzero : w.head? ≠ some '0') : numberOf? w = some (digitsValue 10 w) := by
  fun_cases numberOf? w with
  | case1 => exact absurd rfl hne
  | case2 | case3 | case4 => exact absurd rfl hzero
  | case5 => rfl
  | case6 _ _ _ _ hall => exact absurd (List.all_eq_true.mpr hdigit) hall

theorem scansAs_decimal (n : Nat) : ScansAs (toString n).toList [.number n] := by
  have htext : (toString n).toList = Nat.toDigits 10 n := Nat.toList_repr
  have hdigit : ∀ c ∈ Nat.toDigits 10 n, c.isDigit = true := fun c hc =>
    Nat.isDigit_of_mem_toDigits (by decide) (by decide) hc
  rw [htext]
  refine scansAs_number (fun c hc => isWordChar_of_isDigit (hdigit c hc)) ?_ ?_
  · cases hdigits : Nat.toDigits 10 n with
    | nil => exact absurd hdigits Nat.toDigits_ne_nil
    | cons c rest => simpa using hdigit c (by simp [hdigits])
  · by_cases hn : n = 0
    · subst hn
      rfl
    · have hvalue : digitsValue 10 (Nat.toDigits 10 n) = n := by
        simpa using digitsValue_toDigits (by decide : 1 < 10) (f := id) (by decide) n
      rw [numberOf?_of_isDigit Nat.toDigits_ne_nil hdigit
        (head?_toDigits_ne (by decide) (by decide) hn), hvalue]

/-- A digit in capital letters is a digit of the same value. -/
theorem isHexDigit_toUpper_digitChar : ∀ d < 16, isHexDigit d.digitChar.toUpper = true ∧
    isWordChar d.digitChar.toUpper = true ∧ hexDigitValue d.digitChar.toUpper = d := by
  decide

theorem scansAs_hex (n : Nat) : ScansAs (cHexText n).toList [.number n] := by
  have htext : (cHexText n).toList = '0' :: 'x' :: (Nat.toDigits 16 n).map Char.toUpper := by
    simp [cHexText]
  have hdigit : ∀ c ∈ (Nat.toDigits 16 n).map Char.toUpper,
      isHexDigit c = true ∧ isWordChar c = true := by
    intro c hc
    obtain ⟨c, hmem, rfl⟩ := List.mem_map.mp hc
    obtain ⟨d, hd, rfl⟩ := exists_of_mem_toDigits (by decide : 1 < 16) hmem
    exact ⟨(isHexDigit_toUpper_digitChar d hd).1, (isHexDigit_toUpper_digitChar d hd).2.1⟩
  have hvalue : digitsValue 16 ((Nat.toDigits 16 n).map Char.toUpper) = n :=
    digitsValue_toDigits (by decide) (fun d hd => (isHexDigit_toUpper_digitChar d hd).2.2) n
  rw [htext]
  refine scansAs_number ?_ rfl ?_
  · simp only [List.mem_cons]
    rintro c (rfl | rfl | hc)
    · rfl
    · rfl
    · exact (hdigit c hc).2
  · have hne : (Nat.toDigits 16 n).map Char.toUpper ≠ [] := by simp [Nat.toDigits_ne_nil]
    rw [numberOf?, if_pos ⟨.inl rfl, hne, List.all_eq_true.mpr fun c hc => (hdigit c hc).1⟩,
      hvalue]

/-! #### Trees -/

/-- Between the parts of an expression there are marks, so the parts do not run into each other. -/
theorem scansAs_expression (e : CExpression) (h : e.IsReadable) :
    ScansAs e.render.toList e.tokens := by
  have hopening : IsMark "(".toList [.opening] := ⟨⟨_, _, rfl, rfl⟩, fun _ => rfl⟩
  have hclosing : IsMark ")".toList [.closing] := ⟨⟨_, _, rfl, rfl⟩, fun _ => rfl⟩
  induction e with
  | name x => exact scansAs_name h
  | element array index =>
    have hopening : IsMark "[".toList [.openingBracket] := ⟨⟨_, _, rfl, rfl⟩, fun _ => rfl⟩
    have hclosing : IsMark "]".toList [.closingBracket] := ⟨⟨_, _, rfl, rfl⟩, fun _ => rfl⟩
    have hindex : IsMark _ [.openingBracket, .number index, .closingBracket] :=
      (scansAs_decimal index).enclose hopening hclosing
    intro rest _
    simpa [CExpression.render, CExpression.tokens] using
      (scansAs_name h).append_mark hindex rest
  | group e ih =>
    simpa [CExpression.render, CExpression.tokens] using ((ih h).enclose hopening hclosing).scansAs
  | shiftLeft e amount ih =>
    have hmark : IsMark " << ".toList [.shiftLeft] := ⟨⟨_, _, rfl, rfl⟩, fun _ => rfl⟩
    simpa [CExpression.render, CExpression.tokens] using
      (ih h.1).join hmark (scansAs_decimal amount)
  | shiftRight e amount ih =>
    have hmark : IsMark " >> ".toList [.shiftRight] := ⟨⟨_, _, rfl, rfl⟩, fun _ => rfl⟩
    simpa [CExpression.render, CExpression.tokens] using
      (ih h.1).join hmark (scansAs_decimal amount)
  | bitAnd e mask ih =>
    have hmark : IsMark " & ".toList [.ampersand] := ⟨⟨_, _, rfl, rfl⟩, fun _ => rfl⟩
    simpa [CExpression.render, CExpression.tokens] using (ih h.1).join hmark (scansAs_hex mask)
  | bitOr left right ihl ihr =>
    have hmark : IsMark " | ".toList [.bar] := ⟨⟨_, _, rfl, rfl⟩, fun _ => rfl⟩
    simpa [CExpression.render, CExpression.tokens] using (ihl h.1.1).join hmark (ihr h.2.1)
  | toByte e ih =>
    have hword : ScansAs "uint8_t".toList [.byteType] :=
      scansAs_word (by decide) (List.all_eq_true.mp rfl) rfl
    have hmark := (hword.enclose hopening hclosing).append hopening
    simpa [CExpression.render, CExpression.tokens] using ((ih h).enclose hmark hclosing).scansAs

/-- A statement ends with a mark, so its tokens do not depend on what is behind it. -/
theorem scanFrom?_statement (s : CStatement) (h : s.IsReadable) (rest : List Char) :
    scanFrom? [] (s.render.toList ++ rest) = (scanFrom? [] rest).map (s.tokens ++ ·) := by
  have hsemicolon : IsMark ";".toList [.semicolon] := ⟨⟨_, _, rfl, rfl⟩, fun _ => rfl⟩
  have hequals : IsMark " = ".toList [.equals] := ⟨⟨_, _, rfl, rfl⟩, fun _ => rfl⟩
  have hbarEquals : IsMark " |= ".toList [.barEquals] := ⟨⟨_, _, rfl, rfl⟩, fun _ => rfl⟩
  obtain ⟨target, merges, value⟩ := s
  have hjoin : ∀ {mark us}, IsMark mark us → ScansAs (target.render.toList ++
      (mark ++ value.render.toList)) (target.tokens ++ (us ++ value.tokens)) := fun hmark =>
    (scansAs_expression target h.target).join hmark (scansAs_expression value h.value)
  cases merges with
  | false =>
    simpa [CStatement.render, CStatement.tokens] using (hjoin hequals).append_mark hsemicolon rest
  | true =>
    simpa [CStatement.render, CStatement.tokens] using
      (hjoin hbarEquals).append_mark hsemicolon rest

theorem scan?_renderAll (program : List CStatement) (h : ∀ s ∈ program, s.IsReadable) :
    scan? (CStatement.renderAll program).toList = some (program.flatMap CStatement.tokens) := by
  rw [scan?, CStatement.renderAll, String.toList_intercalate]
  induction program with
  | nil => rfl
  | cons s program ih =>
    obtain ⟨hs, hrest⟩ := List.forall_mem_cons.mp h
    have ih := ih hrest
    cases program with
    | nil =>
      have hlast := scanFrom?_statement s hs []
      simpa [show scanFrom? [] [] = some [] from rfl] using hlast
    | cons s' program =>
      have hline : ∀ text, scanFrom? [] ("\n".toList ++ text) = scanFrom? [] text := fun _ => rfl
      rw [List.map_cons, List.map_cons, List.map_cons, List.map_cons, List.intercalate_cons_cons,
        List.append_assoc, scanFrom?_statement s hs, hline, ← List.map_cons,
        ← List.map_cons, ih, Option.map_some]
      rfl

end CToken

/-! ### Reading the tokens of a tree -/

namespace CExpression

variable {inner : Reader} {d : Nat} {e : CExpression} {t : CToken} {rest : List CToken}

theorem object?_name (x : String) (ht : t ≠ .openingBracket) :
    object? (.name x :: t :: rest) = some (name x, t :: rest) := by
  cases t <;> first | rfl | exact absurd rfl ht

/-- No expression starts with the name of a type. -/
theorem head?_tokens_append (e : CExpression) (rest : List CToken) :
    (e.tokens ++ rest).head? ≠ some .byteType := by
  induction e generalizing rest with
  | name | element | group | toByte => simp [tokens]
  | shiftLeft e _ ih | shiftRight e _ ih | bitAnd e _ ih =>
    rw [tokens, List.append_assoc]
    exact ih _
  | bitOr left right ihl ihr =>
    rw [tokens, List.append_assoc]
    exact ihl _

theorem primary?_opening (inner : Reader) {tokens : List CToken}
    (h : tokens.head? ≠ some .byteType) :
    primary? inner (.opening :: tokens) = closed? inner tokens .group := by
  rw [primary?]
  rintro rest rfl
  exact h rfl

/-- What is no shift ends a chain of shifts. -/
theorem shiftsBehind_of_ne (e : CExpression) (hleft : t ≠ .shiftLeft) (hright : t ≠ .shiftRight) :
    shiftsBehind e (t :: rest) = (e, t :: rest) := by
  rw [shiftsBehind]
  · intro amount rest' h
    exact hleft (List.cons.inj h).1
  · intro amount rest' h
    exact hright (List.cons.inj h).1

/-- **A reader knows the expressions nested less than `d` deep**, closed by a parenthesis. -/
def Knows (inner : Reader) (d : Nat) : Prop :=
  ∀ e : CExpression, e.IsReadable → e.depth < d → ∀ rest,
    inner (e.tokens ++ .closing :: rest) = some (e, .closing :: rest)

section Levels

variable (hinner : Knows inner d)
include hinner

theorem closed?_tokens (h : e.IsReadable) (hdepth : e.depth < d)
    (kind : CExpression → CExpression) (rest : List CToken) :
    closed? inner (e.tokens ++ .closing :: rest) kind = some (kind e, rest) := by
  rw [closed?, hinner e h hdepth]

/-- A shift has been read when the reader goes on with the shifts behind it. -/
theorem shift?_tokens (h : e.IsReadable) (hshift : e.IsShift) (hdepth : e.depth ≤ d)
    (ht : t ≠ .openingBracket) :
    shift? inner (e.tokens ++ t :: rest) = some (shiftsBehind e (t :: rest)) := by
  induction e generalizing t rest with
  | name x =>
    have hread : primary? inner (.name x :: t :: rest) = some (name x, t :: rest) :=
      object?_name x ht
    rw [shift?, tokens, List.singleton_append, hread, Option.map_some]
  | element array index => rfl
  | group e =>
    have hread : primary? inner (e.group.tokens ++ t :: rest) = some (e.group, t :: rest) := by
      rw [tokens, List.cons_append, List.cons_append, List.append_assoc,
        primary?_opening inner (head?_tokens_append e _)]
      exact closed?_tokens hinner (e := e) h hdepth group (t :: rest)
    rw [shift?, hread, Option.map_some]
  | shiftLeft e amount ih =>
    rw [tokens, List.append_assoc]
    exact ih h.1 h.2 hdepth (by simp)
  | shiftRight e amount ih =>
    rw [tokens, List.append_assoc]
    exact ih h.1 h.2 hdepth (by simp)
  | bitAnd => exact hshift.elim
  | bitOr => exact hshift.elim
  | toByte e =>
    have hread : primary? inner (e.toByte.tokens ++ t :: rest) = some (e.toByte, t :: rest) := by
      rw [tokens, List.append_assoc, List.append_assoc]
      exact closed?_tokens hinner (e := e) h hdepth toByte (t :: rest)
    rw [shift?, hread, Option.map_some]

/-- A conjunction has been read when the reader goes on with the masks behind it. -/
theorem conjunction?_tokens (h : e.IsReadable) (hconjunction : e.IsConjunction)
    (hdepth : e.depth ≤ d)
    (ht : t ≠ .openingBracket ∧ t ≠ .shiftLeft ∧ t ≠ .shiftRight) :
    conjunction? inner (e.tokens ++ t :: rest) = some (masksBehind e (t :: rest)) := by
  induction e generalizing t rest with
  | bitOr => exact hconjunction.elim
  | bitAnd e mask ih =>
    rw [tokens, List.append_assoc]
    exact ih h.1 h.2 hdepth (by simp)
  | _ =>
    rw [conjunction?, shift?_tokens hinner h trivial hdepth ht.1, Option.map_some,
      shiftsBehind_of_ne _ ht.2.1 ht.2.2]

end Levels

/-- **An expression is read from its tokens**, if the parentheses are read down to its depth. -/
theorem expression?_tokens (d : Nat) (h : e.IsReadable) (hdepth : e.depth < d)
    (ht : t = .closing ∨ t = .semicolon) :
    expression? d (e.tokens ++ t :: rest) = some (e, t :: rest) := by
  induction d generalizing e t rest with
  | zero => exact absurd hdepth (Nat.not_lt_zero _)
  | succ d ih =>
    have hinner : Knows (expression? d) d := fun e h hdepth _ => ih h hdepth (.inl rfl)
    have hends : t ≠ .openingBracket ∧ t ≠ .shiftLeft ∧ t ≠ .shiftRight := by
      rcases ht with rfl | rfl <;> simp
    have hmasks : ∀ e, masksBehind e (t :: rest) = (e, t :: rest) := fun e => by
      rcases ht with rfl | rfl <;> rfl
    have hle : e.depth ≤ d := Nat.le_of_lt_succ hdepth
    have hread : ∀ e : CExpression, e.IsReadable → e.IsConjunction → e.depth ≤ d →
        conjunction? (expression? d) (e.tokens ++ t :: rest) = some (e, t :: rest) := by
      intro e h hconjunction hdepth
      rw [conjunction?_tokens hinner h hconjunction hdepth hends, hmasks]
    cases e with
    | bitOr left right =>
      obtain ⟨⟨hleft, hlc⟩, hright, hrc⟩ := h
      have hld : left.depth ≤ d := Nat.le_trans (Nat.le_max_left _ _) hle
      have hrd : right.depth ≤ d := Nat.le_trans (Nat.le_max_right _ _) hle
      rw [expression?, tokens, List.append_assoc, List.cons_append,
        conjunction?_tokens hinner hleft hlc hld (by simp)]
      simp only [masksBehind, hread right hright hrc hrd, Option.map_some]
    | _ =>
      rw [expression?, hread _ h trivial hle]
      rcases ht with rfl | rfl <;> rfl

end CExpression

/-! ### Reading the text of statements -/

namespace CStatement

open CToken

variable {s : CStatement} {rest : List CToken}

theorem object?_target (h : s.IsReadable) {t : CToken} (ht : t ≠ .openingBracket) :
    CExpression.object? (s.target.tokens ++ t :: rest) = some (s.target, t :: rest) := by
  obtain ⟨x, hx⟩ | ⟨array, index, helement⟩ := h.isObject
  · rw [hx]
    exact CExpression.object?_name x ht
  · rw [helement]
    rfl

theorem statement?_tokens (h : s.IsReadable) (rest : List CToken) :
    statement? (s.tokens ++ rest) = some (s, rest) := by
  have hvalue : ∀ merges, assigned? s.target merges (s.value.tokens ++ .semicolon :: rest) =
      some (⟨s.target, merges, s.value⟩, rest) := by
    intro merges
    have hdepth := s.value.depth_lt_length_tokens
    rw [assigned?, CExpression.expression?_tokens _ h.value (by simp; omega) (.inr rfl)]
  obtain ⟨target, merges, value⟩ := s
  rw [tokens, List.append_assoc, List.cons_append, List.append_assoc, statement?]
  cases merges with
  | false =>
    simp only [Bool.false_eq_true, if_false]
    rw [object?_target h (by simp)]
    exact hvalue false
  | true =>
    simp only [if_true]
    rw [object?_target h (by simp)]
    exact hvalue true

theorem program?_tokens {count : Nat} (program : List CStatement) (h : ∀ s ∈ program, s.IsReadable)
    (hcount : program.length ≤ count) :
    program? count (program.flatMap tokens) = some program := by
  induction program generalizing count with
  | nil => cases count <;> rfl
  | cons s program ih =>
    obtain ⟨count, rfl⟩ : ∃ n, count = n + 1 := ⟨count - 1, by simp at hcount; omega⟩
    obtain ⟨hs, hrest⟩ := List.forall_mem_cons.mp h
    have hread := statement?_tokens hs (program.flatMap tokens)
    rw [List.flatMap_cons]
    cases htokens : s.tokens ++ program.flatMap tokens with
    | nil =>
      rw [htokens] at hread
      exact absurd hread (by simp [statement?, CExpression.object?])
    | cons t ts =>
      rw [program?, ← htokens, hread]
      simp only [ih hrest (by simpa using hcount), Option.map_some]

/-- Every statement has a token. -/
theorem length_le_length_flatMap_tokens (program : List CStatement) :
    program.length ≤ (program.flatMap tokens).length := by
  induction program with
  | nil => exact Nat.le_refl _
  | cons s program ih =>
    simp only [List.flatMap_cons, List.length_append, List.length_cons, tokens]
    omega

/-- **The statements that a text was made from are read back from it.** -/
theorem parseAll?_renderAll (program : List CStatement) (h : ∀ s ∈ program, s.IsReadable) :
    parseAll? (renderAll program) = some program := by
  rw [parseAll?, scan?_renderAll program h, Option.bind_some,
    program?_tokens program h (length_le_length_flatMap_tokens program)]

end CStatement

end WireCodec
