import Mathlib.Data.List.Induction
import Mathlib.Data.String.Basic
import WireCodec.Length.Term
import WireCodec.Proofs.Length.Cuts

/-!
# Cuts at places of a stored text

A text is stored as bytes, one to four for a character, and its places are numbers of bytes. A piece
of a text is there only if both of its ends are borders between characters
(`WireCodec.Text.slice`). This file finds separators, cuts texts and reads terms by such places, in
passes over the characters that keep a count of parentheses.

No piece that is asked for is missing. A pass finds a separator at a border, and there is another
one as many bytes on as the separator has. Up to the next cut a pass only counts
(`WireCodec.OnlyCounts.overPart_append`), so that it comes from the start of a part to its end as a
whole, and what it does there is told by the cut: the pieces are the parts
(`WireCodec.IsCut.slicedParts_eq`), and the separator that is found is behind the first of them
(`WireCodec.IsCut.separatorPlace?_eq`).

What splitting a text and finding its first separator have to do with each other is
`WireCodec.splitTopLevel_agrees_findTopLevel?`. It is said of the characters of a text, and of its
places with any rule for counts that become too large.
-/

namespace WireCodec

open String (utf8Len)

/-! ### Pieces of a stored text -/

namespace Text

/-- **A piece that a text does not have.** -/
structure Misplaced where
  /-- The place at which it was to start. -/
  start : Nat
  /-- The place at which it was to stop. -/
  stop : Nat
deriving DecidableEq, Repr

/-- **The piece of a text from one place up to another one.** Both have to be borders between
characters, in this order. -/
def slice (text : String) (start stop : Nat) : Except Misplaced String :=
  if h : start ≤ stop ∧ String.Pos.Raw.IsValid text ⟨start⟩ ∧
      String.Pos.Raw.IsValid text ⟨stop⟩ then
    .ok (text.extract (text.pos ⟨start⟩ h.2.1) (text.pos ⟨stop⟩ h.2.2))
  else .error ⟨start, stop⟩

/-- The characters of a text with their places, from that of the first one on. -/
def withPlaces (place : Nat) : List Char → List (Nat × Char)
  | [] => []
  | c :: text => (place, c) :: withPlaces (place + c.utf8Size) text

/-- **What a text is joined from are pieces of it.** -/
theorem slice_append (before piece behind : String) :
    slice (before ++ (piece ++ behind)) before.utf8ByteSize
      (before.utf8ByteSize + piece.utf8ByteSize) = .ok piece := by
  have hstart : String.Pos.Raw.IsValid (before ++ (piece ++ behind)) ⟨before.utf8ByteSize⟩ :=
    String.Pos.Raw.isValid_iff_exists_append.mpr ⟨before, piece ++ behind, rfl, rfl⟩
  have hstop : String.Pos.Raw.IsValid (before ++ (piece ++ behind))
      ⟨before.utf8ByteSize + piece.utf8ByteSize⟩ := by
    refine String.Pos.Raw.isValid_iff_exists_append.mpr
      ⟨before ++ piece, behind, String.append_assoc.symm, ?_⟩
    rw [String.rawEndPos, String.utf8ByteSize_append]
  rw [slice, dif_pos ⟨Nat.le_add_right _ _, hstart, hstop⟩]
  refine congrArg Except.ok (String.toByteArray_inj.mp ?_)
  rw [String.toByteArray_extract, String.offset_pos, String.offset_pos, String.toByteArray_append,
    String.toByteArray_append]
  calc (before.toByteArray ++ (piece.toByteArray ++ behind.toByteArray)).extract
        (before.utf8ByteSize + 0) (before.utf8ByteSize + piece.utf8ByteSize)
    _ = (piece.toByteArray ++ behind.toByteArray).extract 0 piece.utf8ByteSize :=
      ByteArray.extract_append_size_add' String.size_toByteArray.symm
    _ = piece.toByteArray := ByteArray.extract_append_eq_left String.size_toByteArray.symm

theorem slice_ofList (before piece behind : List Char) :
    slice (String.ofList (before ++ (piece ++ behind))) (utf8Len before)
      (utf8Len before + utf8Len piece) = .ok (String.ofList piece) := by
  rw [String.ofList_append, String.ofList_append, ← String.utf8ByteSize_ofList before,
    ← String.utf8ByteSize_ofList piece]
  exact slice_append _ _ _

/-- The piece behind what a text starts with. -/
theorem slice_ofList_end (before piece : List Char) :
    slice (String.ofList (before ++ piece)) (utf8Len before)
      (String.ofList (before ++ piece)).utf8ByteSize = .ok (String.ofList piece) := by
  have hpiece := slice_ofList before piece []
  rwa [List.append_nil, ← String.utf8Len_append, ← String.utf8ByteSize_ofList (before ++ piece)]
    at hpiece

theorem withPlaces_append (place : Nat) (piece rest : List Char) :
    withPlaces place (piece ++ rest) =
      withPlaces place piece ++ withPlaces (place + utf8Len piece) rest := by
  induction piece generalizing place with
  | nil => rfl
  | cons c piece ih =>
    rw [List.cons_append, withPlaces, ih, withPlaces, String.utf8Len_cons,
      Nat.add_comm (utf8Len piece), Nat.add_assoc]
    rfl

end Text

/-! ### Separators and parts by their places -/

/-- The place of the first separator outside of parentheses, in a pass over the characters with a
count. -/
def separatorPlaceFrom? (wrap : Int → Int) (separator : Char) (count : Int) :
    List (Nat × Char) → Option Nat
  | [] => none
  | (_, '(') :: rest => separatorPlaceFrom? wrap separator (wrap (count + 1)) rest
  | (_, ')') :: rest => separatorPlaceFrom? wrap separator (wrap (count - 1)) rest
  | (place, c) :: rest =>
    if c = separator ∧ count = 0 then some place
    else separatorPlaceFrom? wrap separator count rest

/-- **The place of the first separator outside of parentheses.** -/
def separatorPlace? (wrap : Int → Int) (separator : Char) (text : String) : Option Nat :=
  separatorPlaceFrom? wrap separator 0 (Text.withPlaces 0 text.toList)

/-- The parts of a text from a place on, in a pass over the characters with a count. -/
def slicedPartsFrom (wrap : Int → Int) (separator : Char) (text : String) (start : Nat)
    (count : Int) : List (Nat × Char) → Except Text.Misplaced (List String)
  | [] => do return [← Text.slice text start text.utf8ByteSize]
  | (_, '(') :: rest => slicedPartsFrom wrap separator text start (wrap (count + 1)) rest
  | (_, ')') :: rest => slicedPartsFrom wrap separator text start (wrap (count - 1)) rest
  | (place, c) :: rest =>
    if c = separator ∧ count = 0 then do
      let part ← Text.slice text start place
      let parts ← slicedPartsFrom wrap separator text (place + c.utf8Size) count rest
      return part :: parts
    else slicedPartsFrom wrap separator text start count rest

/-- **The parts of a text between its separators**, each a piece from one place up to another. -/
def slicedParts (wrap : Int → Int) (separator : Char) (text : String) :
    Except Text.Misplaced (List String) :=
  slicedPartsFrom wrap separator text 0 0 (Text.withPlaces 0 text.toList)

/-! ### Up to a cut -/

variable {wrap : Int → Int} {separator : Char} {part tail : List Char} {parts : List (List Char)}
  {text : String} {start place : Nat} {places : List (Nat × Char)}

/-- **A pass only counts** at a character where there is no cut. -/
def OnlyCounts {β : Type} (wrap : Int → Int) (separator : Char)
    (pass : Int → List (Nat × Char) → β) : Prop :=
  ∀ count place c places, ¬(c = separator ∧ count = 0) →
    pass count ((place, c) :: places) = pass (countAfter wrap count c) places

/-- **Over a part without a cut a pass only counts.** -/
theorem OnlyCounts.overPart_append {β : Type} {pass : Int → List (Nat × Char) → β}
    (hpass : OnlyCounts wrap separator pass) (h : IsUncut wrap separator part) (place : Nat)
    (places : List (Nat × Char)) :
    pass 0 (Text.withPlaces place part ++ places) = pass (countBehind wrap part) places := by
  induction part using List.reverseRecOn generalizing places with
  | nil => rfl
  | append_singleton part c ih =>
    have hc : ¬(c = separator ∧ countBehind wrap part = 0) := by
      rintro ⟨rfl, hcount⟩
      exact h part [] rfl hcount
    rw [Text.withPlaces_append, List.append_assoc, ih h.of_append, countBehind_concat]
    exact hpass _ _ c places hc

/-- The same at the end of the text. -/
theorem OnlyCounts.overPart {β : Type} {pass : Int → List (Nat × Char) → β}
    (hpass : OnlyCounts wrap separator pass) (h : IsUncut wrap separator part) (place : Nat) :
    pass 0 (Text.withPlaces place part) = pass (countBehind wrap part) [] := by
  have hover := hpass.overPart_append h place []
  rwa [List.append_nil] at hover

theorem onlyCounts_separatorPlaceFrom? :
    OnlyCounts wrap separator (separatorPlaceFrom? wrap separator) := by
  intro count place c places h
  cases c using parenthesisCases with
  | opening => rfl
  | closing => rfl
  | other c hopening hclosing =>
    rw [countAfter_of_ne hopening hclosing, separatorPlaceFrom?, if_neg h]
    · exact hopening
    · exact hclosing

theorem onlyCounts_slicedPartsFrom :
    OnlyCounts wrap separator (slicedPartsFrom wrap separator text start) := by
  intro count place c places h
  cases c using parenthesisCases with
  | opening => rfl
  | closing => rfl
  | other c hopening hclosing =>
    rw [countAfter_of_ne hopening hclosing, slicedPartsFrom, if_neg h]
    · exact hopening
    · exact hclosing

/-! ### Whole texts -/

section Whole

variable (hopening : separator ≠ '(') (hclosing : separator ≠ ')')

include hopening hclosing

/-- A separator outside of parentheses is found. -/
theorem separatorPlaceFrom?_cut :
    separatorPlaceFrom? wrap separator 0 ((place, separator) :: places) = some place := by
  rw [separatorPlaceFrom?, if_pos ⟨rfl, rfl⟩]
  · exact hopening
  · exact hclosing

/-- A separator outside of parentheses ends a part, and the next one starts behind it. -/
theorem slicedPartsFrom_cut {first : String} {others : List String}
    (hfirst : Text.slice text start place = .ok first)
    (hothers : slicedPartsFrom wrap separator text (place + separator.utf8Size) 0 places =
      .ok others) :
    slicedPartsFrom wrap separator text start 0 ((place, separator) :: places) =
      .ok (first :: others) := by
  rw [slicedPartsFrom, if_pos ⟨rfl, rfl⟩, hfirst]
  · change (slicedPartsFrom wrap separator text (place + separator.utf8Size) 0 places >>= _) = _
    rw [hothers]
    rfl
  · exact hopening
  · exact hclosing

/-- **The first separator is found at the end of the first part**, if there is one more. -/
theorem IsCut.separatorPlace?_eq (h : IsCut wrap separator text.toList parts) :
    separatorPlace? wrap separator text = (endedPart? parts).map utf8Len := by
  rw [separatorPlace?]
  generalize text.toList = chars at h
  cases h with
  | last hpart =>
    rw [onlyCounts_separatorPlaceFrom?.overPart hpart]
    rfl
  | cut hpart hcount hparts =>
    rw [Text.withPlaces_append, onlyCounts_separatorPlaceFrom?.overPart_append hpart, hcount,
      Text.withPlaces, separatorPlaceFrom?_cut hopening hclosing, endedPart?_cons hparts.ne_nil,
      Option.map_some, Nat.zero_add]

/-- Cutting the rest of a text gives its parts, as pieces of the whole text. -/
theorem IsCut.slicedPartsFrom_eq (h : IsCut wrap separator tail parts) (before : List Char) :
    slicedPartsFrom wrap separator (String.ofList (before ++ tail)) (utf8Len before) 0
      (Text.withPlaces (utf8Len before) tail) = .ok (parts.map String.ofList) := by
  induction h generalizing before with
  | @last part hpart =>
    rw [onlyCounts_slicedPartsFrom.overPart hpart, slicedPartsFrom, Text.slice_ofList_end]
    rfl
  | @cut part tail parts hpart hcount _ ih =>
    have hpiece := Text.slice_ofList before part (separator :: tail)
    -- The next part starts behind the separator.
    have hothers := ih (before ++ (part ++ [separator]))
    rw [List.append_assoc, List.append_assoc, List.singleton_append, String.utf8Len_append,
      String.utf8Len_append, String.utf8Len_cons, String.utf8Len_nil, Nat.zero_add,
      ← Nat.add_assoc] at hothers
    rw [Text.withPlaces_append, onlyCounts_slicedPartsFrom.overPart_append hpart, hcount]
    exact slicedPartsFrom_cut hopening hclosing hpiece hothers

/-- **The parts of a text are pieces of it**, and cutting it asks for no others. -/
theorem IsCut.slicedParts_eq (h : IsCut wrap separator text.toList parts) :
    slicedParts wrap separator text = .ok (parts.map String.ofList) := by
  have hparts := h.slicedPartsFrom_eq hopening hclosing []
  rwa [List.nil_append, String.ofList_toList] at hparts

end Whole

/-- **A text has the pieces before and behind its first separator.** -/
theorem IsCut.exists_slices (h : IsCut wrap separator text.toList parts)
    (hpart : endedPart? parts = some part) :
    ∃ rest, text.toList = part ++ separator :: rest ∧
      Text.slice text 0 (utf8Len part) = .ok (String.ofList part) ∧
      Text.slice text (utf8Len part + separator.utf8Size) text.utf8ByteSize =
        .ok (String.ofList rest) := by
  obtain ⟨-, rest, htext⟩ := h.of_endedPart? hpart
  have hbefore := Text.slice_ofList [] part (separator :: rest)
  have hbehind := Text.slice_ofList_end (part ++ [separator]) rest
  rw [List.nil_append, String.utf8Len_nil, Nat.zero_add] at hbefore
  rw [List.append_assoc, List.singleton_append, String.utf8Len_append, String.utf8Len_cons,
    String.utf8Len_nil, Nat.zero_add] at hbehind
  rw [← htext, String.ofList_toList] at hbefore hbehind
  exact ⟨rest, htext, hbefore, hbehind⟩

/-! ### Terms -/

namespace LengthTerm

variable {α : Type} [Number α]

/-- The term `coefficient*symbol` that a text is, from the pieces before and behind its first
`*`. -/
def slicedProduct? (text : String) : Except Text.Misplaced (Option (LengthTerm α)) :=
  if isProduct text.toList then
    match separatorPlace? id '*' text with
    | none => return none
    | some place => do
      let left ← Text.slice text 0 place
      let right ← Text.slice text (place + 1) text.utf8ByteSize
      let symbol := Text.trim right.toList
      match (evaluate? (Text.trim left.toList) : Option α) with
      | none => return none
      | some c =>
        return if Number.isIntegral c && !symbol.isEmpty then some (symbolic c symbol) else none
  else return none

/-- **The term that a text is**, read by its pieces. -/
def slicedTerm? (text : String) : Except Text.Misplaced (Option (LengthTerm α)) :=
  let text := Text.trim text.toList
  if text.isEmpty then return none
  else
    match (evaluate? text : Option α) with
    | some value => return some (constant value)
    | none => do
      let product? ← slicedProduct? (String.ofList text)
      return some (product?.getD (symbolic (Number.ofInt 1) text))

theorem slicedProduct?_eq (text : String) :
    slicedProduct? text = .ok (ofProduct? text.toList : Option (LengthTerm α)) := by
  obtain ⟨parts, hparts⟩ := exists_isCut id '*' text.toList
  unfold slicedProduct? ofProduct?
  rw [hparts.separatorPlace?_eq (by decide) (by decide), hparts.findTopLevel?_eq]
  split
  · cases hpart : endedPart? parts with
    | none => rfl
    | some part =>
      obtain ⟨rest, htext, hleft, hright⟩ := hparts.exists_slices hpart
      have htake : text.toList.take part.length = part := by rw [htext, List.take_left]
      have hdrop : text.toList.drop (part.length + 1) = rest := by rw [htext]; simp
      have hone : Char.utf8Size '*' = 1 := rfl
      rw [hone] at hright
      simp only [Option.map_some, hleft, hright, htake, hdrop, bind, Except.bind,
        String.toList_ofList]
      cases (evaluate? (Text.trim part) : Option α) <;> rfl
  · rfl

/-- **A term is read without a piece that is missing.** -/
theorem slicedTerm?_eq (text : String) :
    slicedTerm? text = .ok (parse? text.toList : Option (LengthTerm α)) := by
  unfold slicedTerm? parse?
  simp only [slicedProduct?_eq, String.toList_ofList]
  split
  · rfl
  · cases (evaluate? (Text.trim text.toList) : Option α) <;> rfl

end LengthTerm

/-! ### Splitting and finding -/

/-- **What splitting a text and finding its first separator say of it.** -/
structure IsSplitting (wrap : Int → Int) (separator : Char) (text : String) (parts : List String)
    (place? : Option Nat) : Prop where
  /-- Joined by separators, the parts are the text. -/
  joined : (String.singleton separator).intercalate parts = text
  /-- No part by itself has a separator outside of parentheses. -/
  uncut : ∀ part ∈ parts, IsUncut wrap separator part.toList
  /-- There is a single part if no separator is found. -/
  single_iff : (∃ part, parts = [part]) ↔ place? = none
  /-- Up to the separator that is found, the text is the first part. -/
  first : ∀ place, place? = some place →
    ∃ part, parts.head? = some part ∧ Text.slice text 0 place = .ok part

theorem IsCut.isSplitting (h : IsCut wrap separator text.toList parts) :
    IsSplitting wrap separator text (parts.map String.ofList)
      ((endedPart? parts).map utf8Len) where
  joined := by
    rw [← String.toList_inj, String.toList_intercalate, List.map_map]
    simpa [Function.comp_def] using h.intercalate
  uncut := by simpa using h.isUncut
  single_iff := by
    rw [Option.map_eq_none_iff, ← h.exists_singleton_iff]
    simp [List.map_eq_singleton_iff]
  first := by
    intro place hplace
    obtain ⟨part, hpart, rfl⟩ := Option.map_eq_some_iff.mp hplace
    obtain ⟨rest, -, hslice, -⟩ := h.exists_slices hpart
    obtain ⟨hhead, -⟩ := h.of_endedPart? hpart
    exact ⟨String.ofList part, by rw [List.head?_map, hhead, Option.map_some], hslice⟩

/-- **Splitting a text at its `+` signs and finding the first of them agree**, for every text,
balanced or not.

* The parts joined by `+` are the text. No part has a `+` at its own top level, and there is one
  part more than there are `+` signs at the top level of the text. It is a single part if none is
  found, and otherwise the first part is the text up to the `+` that is found.
* By places of the stored text, splitting, finding and reading a term give the same. No piece that
  they ask for is missing.
* Nor is it if the count of parentheses is kept in a word, whatever becomes of it there (with 32
  bits, `wrap` is `fun count => count.bmod 4294967296`), and what is said above of the parts holds
  of them as they are counted then. -/
theorem splitTopLevel_agrees_findTopLevel? {α : Type} [Number α] (text : String) :
    (['+'].intercalate (splitTopLevel '+' text.toList) = text.toList ∧
      (∀ part ∈ splitTopLevel '+' text.toList, '+' ∉ topLevel 0 part) ∧
      (splitTopLevel '+' text.toList).length = (topLevel 0 text.toList).count '+' + 1 ∧
      ((∃ part, splitTopLevel '+' text.toList = [part]) ↔
        findTopLevel? '+' text.toList = none) ∧
      ∀ place, findTopLevel? '+' text.toList = some place →
        (splitTopLevel '+' text.toList).head? = some (text.toList.take place)) ∧
    (slicedParts id '+' text = .ok ((splitTopLevel '+' text.toList).map String.ofList) ∧
      separatorPlace? id '+' text =
        (findTopLevel? '+' text.toList).map (fun place => utf8Len (text.toList.take place)) ∧
      LengthTerm.slicedTerm? text = .ok (LengthTerm.parse? text.toList : Option (LengthTerm α))) ∧
    ∀ wrap : Int → Int,
      (∃ parts, slicedParts wrap '+' text = .ok parts ∧
        IsSplitting wrap '+' text parts (separatorPlace? wrap '+' text)) ∧
      ∀ place, separatorPlace? wrap '*' text = some place →
        ∃ left right, Text.slice text 0 place = .ok left ∧
          Text.slice text (place + 1) text.utf8ByteSize = .ok right := by
  obtain ⟨parts, h⟩ := exists_isCut id '+' text.toList
  refine ⟨?_, ?_, fun wrap => ⟨?_, ?_⟩⟩
  · rw [h.splitTopLevel_eq rfl, h.findTopLevel?_eq, Option.map_eq_none_iff]
    refine ⟨h.intercalate, fun part hpart => isUncut_id_iff.mp (h.isUncut part hpart),
      h.length_eq rfl, h.exists_singleton_iff, fun place hplace => ?_⟩
    obtain ⟨part, hpart, rfl⟩ := Option.map_eq_some_iff.mp hplace
    obtain ⟨hhead, rest, htext⟩ := h.of_endedPart? hpart
    rw [hhead, htext, List.take_left]
  · rw [h.splitTopLevel_eq rfl, h.findTopLevel?_eq, h.separatorPlace?_eq (by decide) (by decide),
      Option.map_map]
    refine ⟨h.slicedParts_eq (by decide) (by decide), Option.map_congr fun part hpart => ?_,
      LengthTerm.slicedTerm?_eq text⟩
    obtain ⟨-, rest, htext⟩ := h.of_endedPart? hpart
    rw [Function.comp_apply, htext, List.take_left]
  · obtain ⟨parts, h⟩ := exists_isCut wrap '+' text.toList
    rw [h.separatorPlace?_eq (by decide) (by decide)]
    exact ⟨_, h.slicedParts_eq (by decide) (by decide), h.isSplitting⟩
  · intro place hplace
    obtain ⟨parts, h⟩ := exists_isCut wrap '*' text.toList
    rw [h.separatorPlace?_eq (by decide) (by decide)] at hplace
    obtain ⟨part, hpart, rfl⟩ := Option.map_eq_some_iff.mp hplace
    obtain ⟨rest, -, hleft, hright⟩ := h.exists_slices hpart
    exact ⟨_, _, hleft, hright⟩

-- A parenthesis that is closed too early takes the first `+` below the top level.
example : slicedParts id '+' "é)+(ü+1" = .ok ["é)+(ü", "1"] := by cbv

end WireCodec
