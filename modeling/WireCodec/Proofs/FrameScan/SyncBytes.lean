import Mathlib.Data.List.Basic
import Mathlib.Data.String.Basic
import Mathlib.Tactic.IntervalCases
import WireCodec.Proofs.FrameScan.CommandLine

/-!
# What is read as sync bytes

The value of `--sync` is to be four hexadecimal digits. It is read as a number, after a look at how
many bytes the text has (`WireCodec.ScanOptions.readSync`). Numbers are read with at most a `+`
before them (`WireCodec.Text.parseNatural_eq_ok_iff`), and since a digit is a byte and so is the
`+`, there are two kinds of texts of four bytes: four digits, two for each sync byte, and a `+` with
three digits (`WireCodec.ScanOptions.readSync_eq_ok_iff`). A text of four bytes that are fewer
characters has a character that is no digit.

The value is looked at before everything that could be scanned, and before the greatest size of a
frame. If it is at fault, the run ends there (`WireCodec.ScanOptions.run_of_sync`).
-/

namespace WireCodec

namespace Text

/-! ### Digits -/

/-- **A hexadecimal digit and what it is worth**, in either case. -/
def IsHexDigit (c : Char) (d : Nat) : Prop :=
  "0123456789abcdef".toList[d]? = some c ∨ "0123456789ABCDEF".toList[d]? = some c

theorem IsHexDigit.lt {c : Char} {d : Nat} (h : IsHexDigit c d) : d < 16 := by
  rcases h with h | h
  · exact (List.getElem?_eq_some_iff.mp h).1
  · exact (List.getElem?_eq_some_iff.mp h).1

theorem digitValue?_of_isHexDigit {c : Char} {d : Nat} (h : IsHexDigit c d) :
    digitValue? 16 c = some d ∧ c.utf8Size = 1 ∧ c ≠ '+' := by
  have hlt := h.lt
  interval_cases d <;> rcases h with h | h <;>
    obtain rfl : _ = c := Option.some.inj h <;> exact ⟨rfl, rfl, by decide⟩

theorem isHexDigit_of_digitValue? {c : Char} {d : Nat} (h : digitValue? 16 c = some d) :
    IsHexDigit c d := by
  obtain ⟨hvalue, -⟩ := Option.filter_eq_some_iff.mp h
  obtain ⟨n, hn⟩ : ∃ n, c.toNat = n := ⟨_, rfl⟩
  obtain rfl : c = Char.ofNat n := by rw [← hn, Char.ofNat_toNat]
  split at hvalue
  · rename_i hrange
    obtain ⟨hlow, hhigh⟩ : 48 ≤ (Char.ofNat n).toNat ∧ (Char.ofNat n).toNat ≤ 57 := hrange
    rw [hn] at hlow hhigh
    obtain rfl := Option.some.inj hvalue
    interval_cases n <;> exact .inl rfl
  split at hvalue
  · rename_i hrange
    obtain ⟨hlow, hhigh⟩ : 97 ≤ (Char.ofNat n).toNat ∧ (Char.ofNat n).toNat ≤ 102 := hrange
    rw [hn] at hlow hhigh
    obtain rfl := Option.some.inj hvalue
    interval_cases n <;> exact .inl rfl
  split at hvalue
  · rename_i hrange
    obtain ⟨hlow, hhigh⟩ : 65 ≤ (Char.ofNat n).toNat ∧ (Char.ofNat n).toNat ≤ 70 := hrange
    rw [hn] at hlow hhigh
    obtain rfl := Option.some.inj hvalue
    interval_cases n <;> exact .inr rfl
  · cases hvalue

theorem digitValue?_eq_some_iff {c : Char} {d : Nat} :
    digitValue? 16 c = some d ↔ IsHexDigit c d :=
  ⟨isHexDigit_of_digitValue?, fun h => (digitValue?_of_isHexDigit h).1⟩

/-! ### Numbers -/

/-- **What digits spell**, behind a number. -/
def spelled (base n : Nat) (digits : List Nat) : Nat :=
  digits.foldl (fun n d => n * base + d) n

theorem le_spelled {base : Nat} (hbase : 1 ≤ base) (n : Nat) (digits : List Nat) :
    n ≤ spelled base n digits := by
  induction digits generalizing n with
  | nil => exact Nat.le_refl n
  | cons d digits ih =>
    exact (Nat.le_trans (Nat.le_mul_of_pos_right n hbase) (Nat.le_add_right _ d)).trans (ih _)

/-- **Reading on behind a number** succeeds on digits that do not take it above the limit. -/
theorem foldlM_addDigit_eq_ok_iff {base limit : Nat} (hbase : 1 ≤ base) {text : List Char}
    {n m : Nat} (hn : n ≤ limit) :
    text.foldlM (addDigit base limit) n = .ok m ↔
      ∃ digits, List.Forall₂ (fun c d => digitValue? base c = some d) text digits ∧
        spelled base n digits = m ∧ m ≤ limit := by
  induction text generalizing n with
  | nil =>
    constructor
    · rintro ⟨⟩
      exact ⟨[], .nil, rfl, hn⟩
    · rintro ⟨digits, ⟨⟩, rfl, -⟩
      rfl
  | cons c text ih =>
    rw [List.foldlM_cons, addDigit]
    cases hc : digitValue? base c with
    | none =>
      constructor
      · rintro ⟨⟩
      · rintro ⟨digits, _ | ⟨hd, -⟩, -⟩
        rw [hc] at hd
        cases hd
    | some d =>
      simp only
      split
      · rename_i hlarge
        constructor
        · rintro ⟨⟩
        · rintro ⟨digits, _ | ⟨hd, -⟩, rfl, hle⟩
          obtain rfl := Option.some.inj (hc.symm.trans hd)
          exact absurd ((le_spelled hbase (n * base + d) _).trans hle) (Nat.not_le.mpr hlarge)
      · rename_i hsmall
        refine (ih (Nat.le_of_not_lt hsmall)).trans ?_
        constructor
        · rintro ⟨digits, hdigits, hm, hle⟩
          exact ⟨d :: digits, .cons hc hdigits, hm, hle⟩
        · rintro ⟨digits, _ | ⟨hd, hdigits⟩, hm, hle⟩
          obtain rfl := Option.some.inj (hc.symm.trans hd)
          exact ⟨_, hdigits, hm, hle⟩

theorem dropPlus_of_ne {c : Char} (h : c ≠ '+') (text : List Char) :
    dropPlus (c :: text) = c :: text := by
  unfold dropPlus
  split
  · rename_i heq
    exact absurd (List.cons.inj heq).1 h
  · rfl

theorem forall₂_isHexDigit_iff {text : List Char} {digits : List Nat} :
    List.Forall₂ (fun c d => digitValue? 16 c = some d) text digits ↔
      List.Forall₂ IsHexDigit text digits := by
  simp only [digitValue?_eq_some_iff]

/-- A `+` is no digit. -/
theorem not_forall₂_plus {text : List Char} {digits : List Nat} :
    ¬List.Forall₂ IsHexDigit ('+' :: text) digits := by
  rintro (_ | ⟨hplus, -⟩)
  exact (digitValue?_of_isHexDigit hplus).2.2 rfl

theorem ne_nil_of_forall₂_cons {c : Char} {text : List Char} {digits : List Nat}
    (h : List.Forall₂ IsHexDigit (c :: text) digits) : digits ≠ [] := by
  rintro rfl
  cases h

/-- **The hexadecimal numbers that are read**: digits with at most a `+` before them. -/
theorem parseNatural_eq_ok_iff {limit m : Nat} {text : List Char} :
    parseNatural 16 limit text = .ok m ↔
      ∃ digits, digits ≠ [] ∧ spelled 16 0 digits = m ∧ m ≤ limit ∧
        (List.Forall₂ IsHexDigit text digits ∨
          ∃ rest, text = '+' :: rest ∧ List.Forall₂ IsHexDigit rest digits) := by
  rcases text with _ | ⟨c, text⟩
  · constructor
    · rintro ⟨⟩
    · rintro ⟨digits, hne, -, -, ⟨⟨⟩⟩ | ⟨rest, ⟨⟩, -⟩⟩
      exact absurd rfl hne
  rw [parseNatural, List.isEmpty_cons, if_neg Bool.false_ne_true]
  by_cases hc : c = '+'
  · subst hc
    rcases text with _ | ⟨c, text⟩
    · -- A `+` by itself is kept, and is no digit.
      constructor
      · rintro ⟨⟩
      · rintro ⟨digits, hne, -, -, hplus | ⟨rest, ⟨⟩, ⟨⟩⟩⟩
        · exact absurd hplus not_forall₂_plus
        · exact absurd rfl hne
    · rw [dropPlus, foldlM_addDigit_eq_ok_iff (by decide) (Nat.zero_le _)]
      simp only [forall₂_isHexDigit_iff]
      constructor
      · rintro ⟨digits, hdigits, hm, hle⟩
        exact ⟨digits, ne_nil_of_forall₂_cons hdigits, hm, hle, .inr ⟨_, rfl, hdigits⟩⟩
      · rintro ⟨digits, -, hm, hle, hplus | ⟨rest, hrest, hdigits⟩⟩
        · exact absurd hplus not_forall₂_plus
        · obtain rfl := (List.cons.inj hrest).2
          exact ⟨digits, hdigits, hm, hle⟩
  · rw [dropPlus_of_ne hc, foldlM_addDigit_eq_ok_iff (by decide) (Nat.zero_le _)]
    simp only [forall₂_isHexDigit_iff]
    constructor
    · rintro ⟨digits, hdigits, hm, hle⟩
      exact ⟨digits, ne_nil_of_forall₂_cons hdigits, hm, hle, .inl hdigits⟩
    · rintro ⟨digits, -, hm, hle, hdigits | ⟨rest, hrest, -⟩⟩
      · exact ⟨digits, hdigits, hm, hle⟩
      · exact absurd (List.cons.inj hrest).1 hc

theorem lt_of_mem_digits {text : List Char} {digits : List Nat}
    (h : List.Forall₂ IsHexDigit text digits) : ∀ d ∈ digits, d < 16 := by
  induction h with
  | nil => exact fun d hd => absurd hd List.not_mem_nil
  | cons hc _ ih => exact List.forall_mem_cons.mpr ⟨hc.lt, ih⟩

/-- Digits are one byte each. -/
theorem utf8Len_of_isHexDigit {text : List Char} {digits : List Nat}
    (h : List.Forall₂ IsHexDigit text digits) : String.utf8Len text = digits.length := by
  induction h with
  | nil => rfl
  | cons hc _ ih =>
    rw [String.utf8Len_cons, ih, (digitValue?_of_isHexDigit hc).2.1, List.length_cons]

end Text

namespace ScanOptions

/-! ### Sync bytes -/

/-- **Two bytes in four hexadecimal digits**, two digits for each byte. -/
def SpellsSync (value : String) (bytes : UInt8 × UInt8) : Prop :=
  ∃ a b c d : Nat, List.Forall₂ Text.IsHexDigit value.toList [a, b, c, d] ∧
    bytes = (UInt8.ofNat (16 * a + b), UInt8.ofNat (16 * c + d))

/-- **Two bytes in a `+` and three hexadecimal digits**, the first of which is a byte by itself. -/
def SpellsSignedSync (value : String) (bytes : UInt8 × UInt8) : Prop :=
  ∃ (rest : List Char) (b c d : Nat), value.toList = '+' :: rest ∧
    List.Forall₂ Text.IsHexDigit rest [b, c, d] ∧
    bytes = (UInt8.ofNat b, UInt8.ofNat (16 * c + d))

/-- Four digits are two bytes with two digits each. -/
theorem bytes_of_digits {a b c d : Nat} (h : ∀ digit ∈ [a, b, c, d], digit < 16) :
    Text.spelled 16 0 [a, b, c, d] ≤ 2 ^ 16 - 1 ∧
      UInt8.ofNat (Text.spelled 16 0 [a, b, c, d] / 256) = UInt8.ofNat (16 * a + b) ∧
      UInt8.ofNat (Text.spelled 16 0 [a, b, c, d]) = UInt8.ofNat (16 * c + d) := by
  simp only [List.forall_mem_cons] at h
  obtain ⟨ha, hb, hc, hd, -⟩ := h
  have hspelled : Text.spelled 16 0 [a, b, c, d] = 256 * (16 * a + b) + (16 * c + d) := by
    simp only [Text.spelled, List.foldl_cons, List.foldl_nil]
    omega
  have hhigh : (256 * (16 * a + b) + (16 * c + d)) / 256 = 16 * a + b := by omega
  rw [hspelled, hhigh]
  refine ⟨by omega, rfl, UInt8.toNat_inj.mp ?_⟩
  rw [UInt8.toNat_ofNat', UInt8.toNat_ofNat']
  omega

/-- Three digits are a byte with one digit and a byte with two. -/
theorem bytes_of_three_digits {b c d : Nat} (h : ∀ digit ∈ [b, c, d], digit < 16) :
    Text.spelled 16 0 [b, c, d] ≤ 2 ^ 16 - 1 ∧
      UInt8.ofNat (Text.spelled 16 0 [b, c, d] / 256) = UInt8.ofNat b ∧
      UInt8.ofNat (Text.spelled 16 0 [b, c, d]) = UInt8.ofNat (16 * c + d) := by
  have hfour := bytes_of_digits (List.forall_mem_cons.mpr ⟨Nat.succ_pos 15, h⟩)
  rwa [Nat.mul_zero, Nat.zero_add] at hfour

/-- A text is read as sync bytes if it has four bytes and is a hexadecimal number. -/
theorem readSync_eq_ok_iff_number {value : String} {bytes : UInt8 × UInt8} :
    readSync value = .ok bytes ↔ String.utf8Len value.toList = 4 ∧
      ∃ n, Text.parseNatural 16 (2 ^ 16 - 1) value.toList = .ok n ∧
        (UInt8.ofNat (n / 256), UInt8.ofNat n) = bytes := by
  have hsize : String.utf8Len value.toList = value.utf8ByteSize := by
    rw [← String.utf8ByteSize_ofList, String.ofList_toList]
  rw [readSync, hsize]
  by_cases hfour : value.utf8ByteSize = 4
  · rw [if_neg (not_not.mpr hfour)]
    cases Text.parseNatural 16 (2 ^ 16 - 1) value.toList <;> simp [hfour]
  · rw [if_pos hfour]
    simp [hfour]

/-- **Two bytes are read** from four digits, and from a `+` and three digits. -/
theorem readSync_eq_ok_iff {value : String} {bytes : UInt8 × UInt8} :
    readSync value = .ok bytes ↔ SpellsSync value bytes ∨ SpellsSignedSync value bytes := by
  rw [readSync_eq_ok_iff_number]
  constructor
  · rintro ⟨hfour, n, hn, rfl⟩
    obtain ⟨digits, -, rfl, -, hdigits | ⟨rest, hrest, hdigits⟩⟩ :=
      Text.parseNatural_eq_ok_iff.mp hn
    · rw [Text.utf8Len_of_isHexDigit hdigits] at hfour
      obtain ⟨a, b, c, d, rfl⟩ := List.length_eq_four.mp hfour
      obtain ⟨-, hhigh, hlow⟩ := bytes_of_digits (Text.lt_of_mem_digits hdigits)
      exact .inl ⟨a, b, c, d, hdigits, by rw [hhigh, hlow]⟩
    · rw [hrest, String.utf8Len_cons, Text.utf8Len_of_isHexDigit hdigits] at hfour
      obtain ⟨b, c, d, rfl⟩ := List.length_eq_three.mp (Nat.succ.inj hfour)
      obtain ⟨-, hhigh, hlow⟩ := bytes_of_three_digits (Text.lt_of_mem_digits hdigits)
      exact .inr ⟨rest, b, c, d, hrest, hdigits, by rw [hhigh, hlow]⟩
  · rintro (⟨a, b, c, d, hdigits, rfl⟩ | ⟨rest, b, c, d, hrest, hdigits, rfl⟩)
    · obtain ⟨hle, hhigh, hlow⟩ := bytes_of_digits (Text.lt_of_mem_digits hdigits)
      refine ⟨Text.utf8Len_of_isHexDigit hdigits, _, Text.parseNatural_eq_ok_iff.mpr
        ⟨_, List.cons_ne_nil _ _, rfl, hle, .inl hdigits⟩, ?_⟩
      rw [hhigh, hlow]
    · obtain ⟨hle, hhigh, hlow⟩ := bytes_of_three_digits (Text.lt_of_mem_digits hdigits)
      refine ⟨?_, _, Text.parseNatural_eq_ok_iff.mpr
        ⟨_, List.cons_ne_nil _ _, rfl, hle, .inr ⟨rest, hrest, hdigits⟩⟩, ?_⟩
      · rw [hrest, String.utf8Len_cons, Text.utf8Len_of_isHexDigit hdigits]
        rfl
      · rw [hhigh, hlow]

/-! ### The option -/

/-- The arguments without the first occurrence of each option that has no value. -/
def withoutFlags (args : List String) : List String :=
  ((args.eraseP ["--verbose", "-v"].contains).eraseP ["--fletcher"].contains).eraseP
    ["--len16"].contains

/-- The greatest size of a frame is at fault. -/
def IsSizeError (e : UsageError) : Prop :=
  e = .valueMissing "--max" ∨ ∃ value cause, e = .maxSize value cause

theorem removeValue_eq_error {name : String} {args : List String} {e : UsageError}
    (h : removeValue name args = .error e) : e = .valueMissing name := by
  induction args with
  | nil => cases h
  | cons arg args ih =>
    by_cases harg : arg = name
    · subst harg
      rcases args with _ | ⟨value, args⟩
      · simp only [removeValue, if_pos] at h
        exact (Except.error.inj h).symm
      · rw [removeValue_of_eq] at h
        cases h
    · rw [removeValue_of_ne harg] at h
      cases hrest : removeValue name args with
      | ok found =>
        rw [hrest] at h
        cases h
      | error e' =>
        rw [hrest] at h
        cases h
        exact ih hrest

theorem exists_of_readMaxSize_eq_error {value : String} {e : UsageError}
    (h : readMaxSize value = .error e) : ∃ value cause, e = .maxSize value cause := by
  rw [readMaxSize] at h
  cases hread : Text.parseNatural 10 (2 ^ 64 - 1) value.toList with
  | ok n =>
    rw [hread] at h
    cases h
  | error cause =>
    rw [hread] at h
    exact ⟨value, cause, (Except.error.inj h).symm⟩

section Option

variable {args before after : List String} {value : String}
  (hargs : withoutFlags args = before ++ "--sync" :: value :: after)
  (hbefore : "--sync" ∉ before)
include hargs hbefore

/-- **The value of the option is looked at first**, and the greatest size of a frame after it. -/
theorem parse_of_sync :
    ∃ o : UInt8 × UInt8 → Except UsageError ScanOptions,
      parse args = readSync value >>= o ∧ ∀ sync,
        (∀ options, o sync = .ok options → options.sync = sync) ∧
          ∀ e, o sync = .error e → IsSizeError e := by
  have hsync : removeValue "--sync" (withoutFlags args) = .ok (some value, before ++ after) := by
    have hother : ∀ arg ∈ before, arg ≠ "--sync" := fun arg harg heq => hbefore (heq ▸ harg)
    rw [hargs, removeValue_append hother, removeValue_of_eq]
    rfl
  rw [withoutFlags] at hsync
  simp only [parse, removeFlag, hsync]
  refine ⟨_, rfl, fun sync => ?_⟩
  cases hmax : removeValue "--max" (before ++ after) with
  | error e =>
    constructor
    · rintro options ⟨⟩
    · rintro e' ⟨⟩
      exact .inl (removeValue_eq_error hmax)
  | ok found =>
    obtain ⟨size?, files⟩ := found
    simp only [bind, Except.bind]
    cases size? with
    | none =>
      constructor
      · rintro options ⟨⟩
        rfl
      · rintro e ⟨⟩
    | some size =>
      cases hread : readMaxSize size with
      | ok n =>
        simp only [hread]
        constructor
        · rintro options ⟨⟩
          rfl
        · rintro e ⟨⟩
      | error e =>
        simp only [hread]
        constructor
        · rintro options ⟨⟩
        · rintro e' ⟨⟩
          exact .inr (exists_of_readMaxSize_eq_error hread)

/-- **The sync bytes of a command line** are spelled in four hexadecimal digits, or in three behind
a `+`. With such a value the options are read, unless the greatest size of a frame is at fault. With
any other value the scanner fails, whatever the files and the standard input hold, and has printed
nothing. -/
theorem run_of_sync :
    (∀ bytes, SpellsSync value bytes ∨ SpellsSignedSync value bytes →
      (∃ options, parse args = .ok options ∧
          (options.format.sync0, options.format.sync1) = bytes) ∨
        ∃ e, parse args = .error e ∧ IsSizeError e) ∧
    ((∀ bytes, ¬(SpellsSync value bytes ∨ SpellsSignedSync value bytes)) →
      ∃ e, readSync value = .error e ∧ parse args = .error e ∧
        ∀ stdin readFile, ScanOutcome.run args stdin readFile =
          { status := 1, errors := (ScanFailure.usage e).lines }) := by
  obtain ⟨o, hparse, ho⟩ := parse_of_sync hargs hbefore
  constructor
  · intro bytes hbytes
    obtain ⟨hsync, hsize⟩ := ho bytes
    rw [← readSync_eq_ok_iff] at hbytes
    rw [hbytes] at hparse
    change parse args = o bytes at hparse
    rw [hparse]
    cases hoptions : o bytes with
    | ok options =>
      obtain ⟨hsync0, hsync1, -⟩ := options.format_eq
      exact .inl ⟨options, rfl, by rw [hsync0, hsync1, hsync options hoptions]⟩
    | error e => exact .inr ⟨e, rfl, hsize e hoptions⟩
  · intro hvalue
    simp only [← readSync_eq_ok_iff] at hvalue
    cases hread : readSync value with
    | ok bytes => exact absurd hread (hvalue bytes)
    | error e =>
      rw [hread] at hparse
      change parse args = .error e at hparse
      refine ⟨e, rfl, hparse, fun stdin readFile => ?_⟩
      rw [ScanOutcome.run, hparse]

end Option

/-- Three digits behind a `+` are accepted, and a text with a letter that is no digit is not. -/
theorem run_of_sync_plus :
    withoutFlags ["--sync", "+123"] = [] ++ "--sync" :: "+123" :: [] ∧
      withoutFlags ["f", "-v", "--sync", "12g4"] = ["f"] ++ "--sync" :: "12g4" :: [] ∧
      "--sync" ∉ ["f"] ∧
      (∃ options, parse ["--sync", "+123"] = .ok options ∧
        (options.format.sync0, options.format.sync1) = (0x01, 0x23)) ∧
      ∃ e, ∀ stdin readFile, ScanOutcome.run ["f", "-v", "--sync", "12g4"] stdin readFile =
        { status := 1, errors := (ScanFailure.usage e).lines } := by
  have hplus : withoutFlags ["--sync", "+123"] = [] ++ "--sync" :: "+123" :: [] := rfl
  have hletter : withoutFlags ["f", "-v", "--sync", "12g4"] =
    ["f"] ++ "--sync" :: "12g4" :: [] := rfl
  have hfile : "--sync" ∉ ["f"] := by decide
  have hread : readSync "+123" = .ok (0x01, 0x23) := rfl
  have hwrong : readSync "12g4" = .error (.syncDigits "12g4" .invalidDigit) := rfl
  refine ⟨hplus, hletter, hfile, ?_, ?_⟩
  · obtain haccepted | ⟨e, he, -⟩ :=
      (run_of_sync hplus List.not_mem_nil).1 _ (readSync_eq_ok_iff.mp hread)
    · exact haccepted
    · cases he
  · obtain ⟨e, -, -, hrun⟩ := (run_of_sync hletter hfile).2 fun bytes hbytes => by
      rw [← readSync_eq_ok_iff, hwrong] at hbytes
      cases hbytes
    exact ⟨e, hrun⟩

end ScanOptions

end WireCodec
