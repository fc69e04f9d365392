import Mathlib.Data.List.Nodup
import WireCodec.FrameScan.Report

/-!
# Options in any order

The scanner takes its options out of the command line one after another: three that stand alone, and
two with the argument behind them (`WireCodec.ScanOptions.parse`). A `WireCodec.CommandLine` has the
same arguments in pieces, each of them an option with its value or the name of a file. No option
comes twice in it, and no value and no file has the name of an option. Then taking an option out of
the arguments is taking its piece out of the pieces (`WireCodec.CommandLine.removeFlag_arguments`,
`WireCodec.CommandLine.removeValue_arguments`). What is left behind the last option are the files,
and what has been found on the way is what options there are
(`WireCodec.CommandLine.parse_arguments`).

So the order of the pieces does not matter, but for that of the files among themselves
(`WireCodec.ScanOptions.parse_eq_of_same_settings`). The format is made of the options in an order
of its own, the greatest size of a frame last, since the width of the length field and the checksum
change it (`WireCodec.ScanOptions.format_eq`).
-/

namespace WireCodec

namespace ScanOptions

/-! ### Options with a value -/

theorem removeValue_of_eq (name value : String) (args : List String) :
    removeValue name (name :: value :: args) = .ok (some value, args) := by
  simp [removeValue]

theorem removeValue_of_ne {name arg : String} (h : arg ≠ name) (args : List String) :
    removeValue name (arg :: args) =
      (removeValue name args).map fun found => (found.1, arg :: found.2) := by
  rw [removeValue.eq_def]
  simp only [if_neg h]
  cases removeValue name args <;> rfl

/-- Nothing is taken out of the front of the arguments if the name is not there. -/
theorem removeValue_append {name : String} {front : List String} (h : ∀ arg ∈ front, arg ≠ name)
    (args : List String) :
    removeValue name (front ++ args) =
      (removeValue name args).map fun found => (found.1, front ++ found.2) := by
  induction front with
  | nil => cases hargs : removeValue name args <;> simp [hargs, Except.map]
  | cons arg front ih =>
    obtain ⟨harg, hfront⟩ := List.forall_mem_cons.mp h
    rw [List.cons_append, removeValue_of_ne harg, ih hfront]
    cases removeValue name args <;> rfl

end ScanOptions

/-! ### Pieces of a command line -/

/-- **What an option asks for.** -/
inductive ScanSetting
  /-- Say of each frame with a wrong checksum that it was thrown away. -/
  | verbose
  /-- Fletcher's checksum. -/
  | fletcher
  /-- Two bytes for the length. -/
  | wideLength
  /-- The sync bytes. -/
  | sync (value : String)
  /-- The greatest size of a frame. -/
  | maxSize (value : String)
deriving DecidableEq

namespace ScanSetting

/-- The names of the option. -/
def names : ScanSetting → List String
  | verbose => ["--verbose", "-v"]
  | fletcher => ["--fletcher"]
  | wideLength => ["--len16"]
  | sync _ => ["--sync"]
  | maxSize _ => ["--max"]

/-- The value that stands behind the name. -/
def value? : ScanSetting → Option String
  | sync value => some value
  | maxSize value => some value
  | _ => none

/-- An option is given by its names and its value. -/
theorem eq_of_names {s t : ScanSetting} (hnames : s.names = t.names)
    (hvalue : s.value? = t.value?) : s = t := by
  cases s <;> cases t <;> simp_all [names, value?]

/-- Options of one name all have a value or all have none. -/
theorem isSome_value?_of_names {s t : ScanSetting} (hnames : s.names = t.names) :
    s.value?.isSome = t.value?.isSome := by
  cases s <;> cases t <;> simp_all [names, value?]

end ScanSetting

/-- The names of all options, option by option. -/
def optionNames : List (List String) :=
  [["--verbose", "-v"], ["--fletcher"], ["--len16"], ["--sync"], ["--max"]]

theorem ScanSetting.names_mem_optionNames (s : ScanSetting) : s.names ∈ optionNames := by
  cases s <;> simp [names, optionNames]

/-- No two options have a name in common. -/
theorem eq_of_mem_optionNames {names names' : List String} {name : String}
    (hnames : names ∈ optionNames) (hnames' : names' ∈ optionNames) (h : name ∈ names)
    (h' : name ∈ names') : names = names' := by
  have hdisjoint : ∀ names ∈ optionNames, ∀ names' ∈ optionNames, ∀ name ∈ names, name ∈ names' →
      names = names' := by
    decide
  exact hdisjoint names hnames names' hnames' name h h'

/-- **A piece of a command line.** -/
inductive CommandPiece
  /-- An option under one of its names. -/
  | option (setting : ScanSetting) (name : String)
  /-- The name of a file. -/
  | file (name : String)
deriving DecidableEq

namespace CommandPiece

/-- The arguments of the piece: a value stands right behind the name of its option. -/
def arguments : CommandPiece → List String
  | option setting name => name :: setting.value?.toList
  | file name => [name]

/-- The option. -/
def setting? : CommandPiece → Option ScanSetting
  | option setting _ => some setting
  | file _ => none

/-- The file. -/
def file? : CommandPiece → Option String
  | option _ _ => none
  | file name => some name

/-- The piece is the option with the names. -/
def hasNames (names : List String) (p : CommandPiece) : Bool :=
  p.setting?.any fun s => s.names == names

/-- **The piece can be told from others**: an option has one of its names, and a value or a file has
the name of no option. -/
def IsClear : CommandPiece → Prop
  | option setting name =>
    name ∈ setting.names ∧ ∀ value ∈ setting.value?, ∀ names ∈ optionNames, value ∉ names
  | file name => ∀ names ∈ optionNames, name ∉ names

instance : DecidablePred IsClear
  | option setting name => inferInstanceAs <| Decidable <|
    name ∈ setting.names ∧ ∀ value ∈ setting.value?, ∀ names ∈ optionNames, value ∉ names
  | file name => inferInstanceAs (Decidable (∀ names ∈ optionNames, name ∉ names))

variable {p : CommandPiece} {names : List String}

/-- An option begins with one of its names. -/
theorem arguments_of_hasNames (hclear : p.IsClear) (h : p.hasNames names = true) :
    ∃ s name, p.setting? = some s ∧ s.names = names ∧ name ∈ names ∧
      p.arguments = name :: s.value?.toList := by
  cases p with
  | option s name =>
    obtain rfl : s.names = names := by simpa [hasNames, setting?] using h
    exact ⟨s, name, rfl, rfl, hclear.1, rfl⟩
  | file name => simp [hasNames, setting?] at h

/-- **No argument of another piece is a name of the option.** -/
theorem notMem_of_not_hasNames (hclear : p.IsClear) (hnames : names ∈ optionNames)
    (h : p.hasNames names = false) : ∀ arg ∈ p.arguments, arg ∉ names := by
  cases p with
  | option s name =>
    have hother : s.names ≠ names := by simpa [hasNames, setting?] using h
    intro arg harg
    rcases List.mem_cons.mp harg with rfl | hvalue
    · intro hname
      exact hother (eq_of_mem_optionNames s.names_mem_optionNames hnames hclear.1 hname)
    · exact hclear.2 arg (Option.mem_toList.mp hvalue) names hnames
  | file name =>
    intro arg harg
    obtain rfl := List.mem_singleton.mp harg
    exact hclear names hnames

end CommandPiece

/-- **A command line that can be read in one way**: no option comes twice, and nothing else has the
name of one. -/
structure CommandLine where
  /-- The pieces in their order. -/
  pieces : List CommandPiece
  /-- Options are told from values and files. -/
  isClear : ∀ p ∈ pieces, p.IsClear
  /-- No two pieces are the same option. -/
  once : ((pieces.filterMap CommandPiece.setting?).map ScanSetting.names).Nodup

namespace CommandLine

variable (l : CommandLine)

/-- The arguments. -/
def arguments : List String :=
  l.pieces.flatMap CommandPiece.arguments

/-- The options in their order. -/
def settings : List ScanSetting :=
  l.pieces.filterMap CommandPiece.setting?

/-- The files in their order. -/
def files : List String :=
  l.pieces.filterMap CommandPiece.file?

/-- The command line without an option. -/
def without (names : List String) : CommandLine where
  pieces := l.pieces.filter fun p => !p.hasNames names
  isClear p hp := l.isClear p (List.mem_of_mem_filter hp)
  once := l.once.sublist ((List.filter_sublist.filterMap _).map _)

/-- The value of the option with a name. -/
def value? (name : String) : Option String :=
  l.settings.findSome? fun s => if s.names = [name] then s.value? else none

/-! ### Taking options out -/

section Pieces

variable {p : CommandPiece} {pieces : List CommandPiece} {names : List String}

/-- No other piece is the same option. -/
theorem not_hasNames_of_once
    (honce : (((p :: pieces).filterMap CommandPiece.setting?).map ScanSetting.names).Nodup)
    (hp : p.hasNames names = true) : ∀ q ∈ pieces, q.hasNames names = false := by
  intro q hq
  obtain ⟨s, hs, rfl⟩ : ∃ s, p.setting? = some s ∧ s.names = names := by
    simpa [CommandPiece.hasNames, Option.any_eq_true] using hp
  rw [List.filterMap_cons_some hs, List.map_cons, List.nodup_cons] at honce
  by_contra hsame
  obtain ⟨t, ht, hnames⟩ : ∃ t, q.setting? = some t ∧ t.names = s.names := by
    simpa [CommandPiece.hasNames, Option.any_eq_true] using hsame
  exact honce.1 (List.mem_map.mpr ⟨t, List.mem_filterMap.mpr ⟨q, hq, ht⟩, hnames⟩)

theorem filter_of_once
    (honce : (((p :: pieces).filterMap CommandPiece.setting?).map ScanSetting.names).Nodup)
    (hp : p.hasNames names = true) : pieces.filter (fun q => !q.hasNames names) = pieces :=
  List.filter_eq_self.mpr fun q hq => by rw [not_hasNames_of_once honce hp q hq, Bool.not_false]

theorem once_of_cons
    (honce : (((p :: pieces).filterMap CommandPiece.setting?).map ScanSetting.names).Nodup) :
    ((pieces.filterMap CommandPiece.setting?).map ScanSetting.names).Nodup :=
  honce.sublist (((List.sublist_cons_self p pieces).filterMap _).map _)

variable (hnames : names ∈ optionNames)
include hnames

/-- **Taking an option without a value** out of the arguments is taking its piece out. -/
theorem removeFlag_flatMap (hflag : ∀ s : ScanSetting, s.names = names → s.value? = none)
    (hclear : ∀ p ∈ pieces, p.IsClear)
    (honce : ((pieces.filterMap CommandPiece.setting?).map ScanSetting.names).Nodup) :
    ScanOptions.removeFlag names (pieces.flatMap CommandPiece.arguments) =
      (pieces.any (CommandPiece.hasNames names),
        (pieces.filter fun p => !p.hasNames names).flatMap CommandPiece.arguments) := by
  induction pieces with
  | nil => rfl
  | cons p pieces ih =>
    obtain ⟨hp, hpieces⟩ := List.forall_mem_cons.mp hclear
    obtain ⟨hany, herase⟩ := Prod.mk.inj (ih hpieces (once_of_cons honce))
    rw [ScanOptions.removeFlag, List.flatMap_cons, List.any_append]
    cases hp' : p.hasNames names with
    | true =>
      obtain ⟨s, name, -, hs, hname, harguments⟩ := CommandPiece.arguments_of_hasNames hp hp'
      have hcontains : names.contains name = true := List.contains_iff_mem.mpr hname
      rw [harguments, hflag s hs, Option.toList_none, List.any_cons, hcontains, Bool.true_or,
        Bool.true_or, List.any_cons, hp', Bool.true_or, List.singleton_append,
        List.eraseP_cons_of_pos hcontains, List.filter_cons_of_neg (by simp [hp']),
        filter_of_once honce hp']
    | false =>
      have hnone : ∀ arg ∈ p.arguments, ¬names.contains arg = true := fun arg harg hcontains =>
        CommandPiece.notMem_of_not_hasNames hp hnames hp' arg harg
          (List.contains_iff_mem.mp hcontains)
      rw [List.any_eq_false.mpr hnone, Bool.false_or, List.any_cons, hp', Bool.false_or, hany,
        List.eraseP_append_right _ hnone, herase, List.filter_cons_of_pos (by simp [hp']),
        List.flatMap_cons]

end Pieces

/-- The value of the option with a name, among some options. -/
def valueAmong? (name : String) (settings : List ScanSetting) : Option String :=
  settings.findSome? fun s => if s.names = [name] then s.value? else none

/-- **Taking an option with its value** out of the arguments is taking its piece out. -/
theorem removeValue_flatMap {name : String} {pieces : List CommandPiece}
    (hname : [name] ∈ optionNames)
    (hvalue : ∀ s : ScanSetting, s.names = [name] → s.value?.isSome)
    (hclear : ∀ p ∈ pieces, p.IsClear)
    (honce : ((pieces.filterMap CommandPiece.setting?).map ScanSetting.names).Nodup) :
    ScanOptions.removeValue name (pieces.flatMap CommandPiece.arguments) =
      .ok (valueAmong? name (pieces.filterMap CommandPiece.setting?),
        (pieces.filter fun p => !p.hasNames [name]).flatMap CommandPiece.arguments) := by
  induction pieces with
  | nil => rfl
  | cons p pieces ih =>
    obtain ⟨hp, hpieces⟩ := List.forall_mem_cons.mp hclear
    rw [List.flatMap_cons]
    cases hp' : p.hasNames [name] with
    | true =>
      obtain ⟨s, n, hs, hnames, hn, harguments⟩ := CommandPiece.arguments_of_hasNames hp hp'
      obtain rfl := List.mem_singleton.mp hn
      obtain ⟨value, hsome⟩ := Option.isSome_iff_exists.mp (hvalue s hnames)
      rw [harguments, hsome, Option.toList_some, List.filterMap_cons_some hs, valueAmong?,
        List.findSome?_cons, if_pos hnames, hsome, List.filter_cons_of_neg (by simp [hp']),
        filter_of_once honce hp', List.cons_append, List.singleton_append,
        ScanOptions.removeValue_of_eq]
    | false =>
      have hother : ∀ arg ∈ p.arguments, arg ≠ name := fun arg harg heq =>
        CommandPiece.notMem_of_not_hasNames hp hname hp' arg harg (List.mem_singleton.mpr heq)
      have hamong : valueAmong? name ((p :: pieces).filterMap CommandPiece.setting?) =
          valueAmong? name (pieces.filterMap CommandPiece.setting?) := by
        cases hs : p.setting? with
        | none => rw [List.filterMap_cons_none hs]
        | some s =>
          have hnames : s.names ≠ [name] := by simpa [CommandPiece.hasNames, hs] using hp'
          rw [List.filterMap_cons_some hs, valueAmong?, List.findSome?_cons, if_neg hnames]
          rfl
      rw [ScanOptions.removeValue_append hother, ih hpieces (once_of_cons honce), hamong,
        List.filter_cons_of_pos (by simp [hp']), List.flatMap_cons]
      rfl

/-- An option without a value is what its names say. -/
theorem any_hasNames (s : ScanSetting) (hs : s.value? = none) :
    l.pieces.any (CommandPiece.hasNames s.names) = decide (s ∈ l.settings) := by
  have hsame : ∀ t : ScanSetting, t.names = s.names ↔ t = s := by
    intro t
    refine ⟨fun hnames => ScanSetting.eq_of_names hnames ?_, congrArg _⟩
    simpa [hs] using ScanSetting.isSome_value?_of_names hnames
  rw [Bool.eq_iff_iff, List.any_eq_true, decide_eq_true_iff, settings, List.mem_filterMap]
  simp only [CommandPiece.hasNames, Option.any_eq_true, beq_iff_eq, hsame, exists_eq_right]

theorem mem_settings_without {names : List String} {s : ScanSetting} :
    s ∈ (l.without names).settings ↔ s ∈ l.settings ∧ s.names ≠ names := by
  simp only [settings, without, List.mem_filterMap, List.mem_filter, Bool.not_eq_true']
  constructor
  · rintro ⟨p, ⟨hp, hnames⟩, hs⟩
    exact ⟨⟨p, hp, hs⟩, by simpa [CommandPiece.hasNames, hs] using hnames⟩
  · rintro ⟨⟨p, hp, hs⟩, hnames⟩
    exact ⟨p, ⟨hp, by simpa [CommandPiece.hasNames, hs] using hnames⟩, hs⟩

theorem files_without (names : List String) : (l.without names).files = l.files := by
  rw [files, without, List.filterMap_filter]
  refine List.filterMap_congr fun p _ => ?_
  cases p with
  | option s name => simp [CommandPiece.file?]
  | file name => simp [CommandPiece.hasNames, CommandPiece.setting?]

/-- **The value of an option** is that of the only option of its name. -/
theorem value?_eq_some_iff {name value : String} :
    l.value? name = some value ↔ ∃ s ∈ l.settings, s.names = [name] ∧ s.value? = some value := by
  constructor
  · intro h
    obtain ⟨s, hs, hvalue⟩ := List.exists_of_findSome?_eq_some h
    split at hvalue
    · exact ⟨s, hs, ‹_›, hvalue⟩
    · cases hvalue
  · rintro ⟨s, hs, hnames, hvalue⟩
    have hsome : (l.value? name).isSome := by
      rw [value?, List.findSome?_isSome_iff]
      exact ⟨s, hs, by rw [if_pos hnames, hvalue]; rfl⟩
    obtain ⟨value', hfound⟩ := Option.isSome_iff_exists.mp hsome
    obtain ⟨t, ht, hvalue'⟩ := List.exists_of_findSome?_eq_some hfound
    split at hvalue'
    · obtain rfl := List.inj_on_of_nodup_map l.once hs ht (hnames.trans (Eq.symm ‹_›))
      rw [hfound, ← hvalue', hvalue]
    · cases hvalue'

theorem value?_without {name : String} {names : List String} (h : [name] ≠ names) :
    (l.without names).value? name = l.value? name := by
  refine Option.ext fun value => ?_
  rw [value?_eq_some_iff, value?_eq_some_iff]
  refine exists_congr fun s => ?_
  rw [mem_settings_without]
  refine ⟨fun ⟨⟨hs, _⟩, hvalue⟩ => ⟨hs, hvalue⟩, fun ⟨hs, hnames, hvalue⟩ => ?_⟩
  exact ⟨⟨hs, hnames ▸ h⟩, hnames, hvalue⟩

/-- Without options there are the files. -/
theorem arguments_eq_files (h : ∀ s, s ∉ l.settings) : l.arguments = l.files := by
  rw [arguments, files, List.filterMap_eq_flatMap_toList]
  refine List.flatMap_congr fun p hp => ?_
  cases p with
  | option s name =>
    have hs : s ∈ l.settings := List.mem_filterMap.mpr ⟨.option s name, hp, rfl⟩
    exact absurd hs (h s)
  | file name => rfl

theorem removeFlag_arguments (s : ScanSetting) (hs : s.value? = none) :
    ScanOptions.removeFlag s.names l.arguments =
      (decide (s ∈ l.settings), (l.without s.names).arguments) := by
  have hflag : ∀ t : ScanSetting, t.names = s.names → t.value? = none := fun t hnames => by
    simpa [hs] using ScanSetting.isSome_value?_of_names hnames
  rw [← l.any_hasNames s hs]
  exact removeFlag_flatMap s.names_mem_optionNames hflag l.isClear l.once

theorem removeValue_arguments (s : ScanSetting) {name : String} (hnames : s.names = [name])
    (hs : s.value?.isSome) :
    ScanOptions.removeValue name l.arguments =
      .ok (l.value? name, (l.without [name]).arguments) :=
  removeValue_flatMap (hnames ▸ s.names_mem_optionNames)
    (fun _ ht => (ScanSetting.isSome_value?_of_names (ht.trans hnames.symm)).trans hs)
    l.isClear l.once

/-- The files are left when all options have been taken out. -/
theorem arguments_without_all :
    (((((l.without ["--verbose", "-v"]).without ["--fletcher"]).without ["--len16"]).without
      ["--sync"]).without ["--max"]).arguments = l.files := by
  rw [arguments_eq_files]
  · simp only [files_without]
  · intro s
    simp only [mem_settings_without]
    cases s <;> simp [ScanSetting.names]

/-- The sync bytes that are asked for. -/
def sync : Except UsageError (UInt8 × UInt8) :=
  match l.value? "--sync" with
  | some value => ScanOptions.readSync value
  | none => .ok ScanOptions.defaultSync

/-- The greatest size of a frame, if one is asked for. -/
def maxSize? : Except UsageError (Option Nat) :=
  match l.value? "--max" with
  | some value => some <$> ScanOptions.readMaxSize value
  | none => .ok none

/-- **What the options and files of a command line say.** -/
theorem parse_arguments :
    ScanOptions.parse l.arguments = do
      let sync ← l.sync
      let maxSize? ← l.maxSize?
      return {
        verbose := decide (.verbose ∈ l.settings)
        fletcher := decide (.fletcher ∈ l.settings)
        wideLength := decide (.wideLength ∈ l.settings)
        sync, maxSize?, files := l.files } := by
  have hverbose := l.removeFlag_arguments .verbose rfl
  have hfletcher := (l.without ["--verbose", "-v"]).removeFlag_arguments .fletcher rfl
  have hwide := ((l.without ["--verbose", "-v"]).without ["--fletcher"]).removeFlag_arguments
    .wideLength rfl
  have hsync := (((l.without ["--verbose", "-v"]).without ["--fletcher"]).without
    ["--len16"]).removeValue_arguments (.sync "") rfl rfl
  have hmax := ((((l.without ["--verbose", "-v"]).without ["--fletcher"]).without
    ["--len16"]).without ["--sync"]).removeValue_arguments (.maxSize "") rfl rfl
  -- What an option asks for is not taken out with those before it.
  simp only [mem_settings_without, ScanSetting.names, ne_eq, List.cons.injEq, reduceCtorEq,
    and_false, not_false_eq_true, and_true, String.reduceEq] at hverbose hfletcher hwide
  rw [value?_without _ (by simp), value?_without _ (by simp), value?_without _ (by simp)] at hsync
  rw [value?_without _ (by simp), value?_without _ (by simp), value?_without _ (by simp),
    value?_without _ (by simp), arguments_without_all] at hmax
  simp only [ScanOptions.parse, hverbose, hfletcher, hwide, hsync, sync, maxSize?]
  cases l.value? "--sync" with
  | none =>
    change (ScanOptions.removeValue "--max" _ >>= fun found => _) = _
    rw [hmax]
    cases l.value? "--max" <;> rfl
  | some value =>
    change (ScanOptions.readSync value >>= _) = (ScanOptions.readSync value >>= _)
    cases ScanOptions.readSync value with
    | error e => rfl
    | ok sync =>
      change (ScanOptions.removeValue "--max" _ >>= fun found => _) = _
      rw [hmax]
      cases l.value? "--max" <;> rfl

/-! ### What does not depend on the order -/

/-- Two command lines with the same options have the same values. -/
theorem value?_congr {l l' : CommandLine} (h : ∀ s, s ∈ l.settings ↔ s ∈ l'.settings)
    (name : String) : l.value? name = l'.value? name := by
  refine Option.ext fun value => ?_
  rw [value?_eq_some_iff, value?_eq_some_iff]
  exact exists_congr fun s => and_congr_left fun _ => h s

theorem parse_congr {l l' : CommandLine} (h : ∀ s, s ∈ l.settings ↔ s ∈ l'.settings)
    (hfiles : l.files = l'.files) :
    ScanOptions.parse l.arguments = ScanOptions.parse l'.arguments := by
  rw [parse_arguments, parse_arguments, sync, sync, maxSize?, maxSize?, value?_congr h,
    value?_congr h, hfiles]
  simp only [h]

/-- An option is there if its value is found under its name. -/
theorem value?_eq_some_iff_mem {s : ScanSetting} {name value : String} (hnames : s.names = [name])
    (hvalue : s.value? = some value) : l.value? name = some value ↔ s ∈ l.settings := by
  have hsame : ∀ t : ScanSetting, t.names = [name] ∧ t.value? = some value → t = s := by
    rintro t ⟨ht, htvalue⟩
    exact ScanSetting.eq_of_names (ht.trans hnames.symm) (htvalue.trans hvalue.symm)
  rw [value?_eq_some_iff]
  constructor
  · rintro ⟨t, ht, hfound⟩
    exact hsame t hfound ▸ ht
  · intro hs
    exact ⟨s, hs, hnames, hvalue⟩

/-- What is asked for with a value of `--sync`, and without one. -/
theorem sync_eq_ok_iff {bytes : UInt8 × UInt8} :
    l.sync = .ok bytes ↔
      (∀ value, .sync value ∈ l.settings → ScanOptions.readSync value = .ok bytes) ∧
        ((∀ value, .sync value ∉ l.settings) → ScanOptions.defaultSync = bytes) := by
  have hmem : ∀ value, l.value? "--sync" = some value ↔ .sync value ∈ l.settings := fun value =>
    l.value?_eq_some_iff_mem rfl rfl
  simp only [sync, ← hmem]
  cases l.value? "--sync" <;> simp

theorem exists_of_sync_eq_error {e : UsageError} (h : l.sync = .error e) :
    ∃ value, .sync value ∈ l.settings ∧ ScanOptions.readSync value = .error e := by
  rw [sync] at h
  cases hvalue : l.value? "--sync" with
  | none =>
    rw [hvalue] at h
    cases h
  | some value =>
    rw [hvalue] at h
    exact ⟨value, (l.value?_eq_some_iff_mem rfl rfl).mp hvalue, h⟩

/-- What is asked for with a value of `--max`, and without one. -/
theorem maxSize?_eq_ok_iff {size? : Option Nat} :
    l.maxSize? = .ok size? ↔
      (∀ value, .maxSize value ∈ l.settings →
          ∃ size, ScanOptions.readMaxSize value = .ok size ∧ size? = some size) ∧
        ((∀ value, .maxSize value ∉ l.settings) → size? = none) := by
  have hmem : ∀ value, l.value? "--max" = some value ↔ .maxSize value ∈ l.settings := fun value =>
    l.value?_eq_some_iff_mem rfl rfl
  simp only [maxSize?, ← hmem]
  cases l.value? "--max" with
  | none => simp [eq_comm]
  | some value =>
    cases hread : ScanOptions.readMaxSize value <;> simp [hread, eq_comm, Functor.map, Except.map]

theorem exists_of_maxSize?_eq_error {e : UsageError} (h : l.maxSize? = .error e) :
    ∃ value, .maxSize value ∈ l.settings ∧ ScanOptions.readMaxSize value = .error e := by
  rw [maxSize?] at h
  cases hvalue : l.value? "--max" with
  | none =>
    rw [hvalue] at h
    cases h
  | some value =>
    rw [hvalue] at h
    cases hread : ScanOptions.readMaxSize value with
    | ok size =>
      simp only [hread] at h
      cases h
    | error e' =>
      simp only [hread] at h
      cases h
      exact ⟨value, (l.value?_eq_some_iff_mem rfl rfl).mp hvalue, hread⟩

end CommandLine

namespace ScanOptions

/-- **The format that is asked for**: the greatest size of a frame is the one that was given, and
only without one does it follow the other options. -/
theorem format_eq (o : ScanOptions) :
    o.format.sync0 = o.sync.1 ∧ o.format.sync1 = o.sync.2 ∧
      o.format.lengthWidth = (if o.wideLength then .two else .one) ∧
      o.format.checksum = (if o.fletcher then .fletcher16 else .crc32) ∧
      o.format.maxSize =
        o.maxSize?.getD (o.format.overhead + o.format.lengthWidth.maxBody) := by
  obtain ⟨verbose, fletcher, wideLength, sync, maxSize?, files⟩ := o
  cases fletcher <;> cases wideLength <;> cases maxSize? <;>
    simp [format, FrameFormat.ofSync, FrameFormat.withLengthWidth, FrameFormat.withChecksum,
      FrameFormat.withMaxSize, FrameFormat.overhead, FrameFormat.headerLength]

/-- **The options are what a command line asks for.** -/
structure Follows (o : ScanOptions) (l : CommandLine) : Prop where
  /-- Frames that were thrown away are told of if that is asked for. -/
  verbose_iff : o.verbose = true ↔ .verbose ∈ l.settings
  /-- The files are those of the command line, in their order. -/
  files_eq : o.files = l.files
  /-- The width of the length field. -/
  lengthWidth_eq : o.format.lengthWidth = if .wideLength ∈ l.settings then .two else .one
  /-- The checksum. -/
  checksum_eq : o.format.checksum = if .fletcher ∈ l.settings then .fletcher16 else .crc32
  /-- The sync bytes that are given. -/
  sync_of_mem : ∀ value, .sync value ∈ l.settings →
    readSync value = .ok (o.format.sync0, o.format.sync1)
  /-- The sync bytes when none are given. -/
  sync_of_notMem : (∀ value, .sync value ∉ l.settings) →
    (o.format.sync0, o.format.sync1) = defaultSync
  /-- A greatest size that is given holds, whatever the other options are. -/
  maxSize_of_mem : ∀ value, .maxSize value ∈ l.settings → readMaxSize value = .ok o.format.maxSize
  /-- If none is given, there is room for the longest body that can be declared. -/
  maxSize_of_notMem : (∀ value, .maxSize value ∉ l.settings) →
    o.format.maxSize = o.format.overhead + o.format.lengthWidth.maxBody

theorem follows_of_parse {l : CommandLine} {o : ScanOptions} (h : parse l.arguments = .ok o) :
    o.Follows l := by
  rw [CommandLine.parse_arguments] at h
  cases hsync : l.sync with
  | error e => rw [hsync] at h; cases h
  | ok sync =>
    cases hmax : l.maxSize? with
    | error e => rw [hsync, hmax] at h; cases h
    | ok maxSize? =>
      rw [hsync, hmax] at h
      obtain ⟨hsome, hnone⟩ := l.sync_eq_ok_iff.mp hsync
      obtain ⟨hsize, hdefault⟩ := l.maxSize?_eq_ok_iff.mp hmax
      cases h
      obtain ⟨hsync0, hsync1, hlength, hchecksum, hmaxSize⟩ := format_eq
        ⟨decide (.verbose ∈ l.settings), decide (.fletcher ∈ l.settings),
          decide (.wideLength ∈ l.settings), sync, maxSize?, l.files⟩
      refine ⟨decide_eq_true_iff, rfl, ?_, ?_, ?_, ?_, ?_, ?_⟩
      · simpa using hlength
      · simpa using hchecksum
      · intro value hvalue
        rw [hsync0, hsync1, hsome value hvalue]
      · intro hvalue
        rw [hsync0, hsync1, hnone hvalue]
      · intro value hvalue
        obtain ⟨size, hread, rfl⟩ := hsize value hvalue
        rw [hmaxSize, hread]
        rfl
      · intro hvalue
        rw [hmaxSize, hdefault hvalue]
        rfl

/-- What is wrong is the value of an option. -/
theorem exists_of_parse_eq_error {l : CommandLine} {e : UsageError}
    (h : parse l.arguments = .error e) :
    (∃ value, .sync value ∈ l.settings ∧ readSync value = .error e) ∨
      ∃ value, .maxSize value ∈ l.settings ∧ readMaxSize value = .error e := by
  rw [CommandLine.parse_arguments] at h
  cases hsync : l.sync with
  | error e' =>
    rw [hsync] at h
    cases h
    exact .inl (l.exists_of_sync_eq_error hsync)
  | ok sync =>
    cases hmax : l.maxSize? with
    | error e' =>
      rw [hsync, hmax] at h
      cases h
      exact .inr (l.exists_of_maxSize?_eq_error hmax)
    | ok maxSize? =>
      rw [hsync, hmax] at h
      cases h

/-- **The order of the options does not matter.** Two command lines that have the same options with
the same values and name the same files in the same order ask for the same thing, and are at fault
in the same way. What they ask for is said by the options that are there; in particular, a greatest
size of frames that is given is not undone by the options for the checksum and the length field. -/
theorem parse_eq_of_same_settings (l l' : CommandLine)
    (hsettings : ∀ s, s ∈ l.settings ↔ s ∈ l'.settings) (hfiles : l.files = l'.files) :
    parse l.arguments = parse l'.arguments ∧
      (∀ stdin readFile, ScanOutcome.run l.arguments stdin readFile =
        ScanOutcome.run l'.arguments stdin readFile) ∧
      (∀ o, parse l.arguments = .ok o → o.Follows l) ∧
      ∀ e, parse l.arguments = .error e →
        (∃ value, .sync value ∈ l.settings ∧ readSync value = .error e) ∨
          ∃ value, .maxSize value ∈ l.settings ∧ readMaxSize value = .error e := by
  have hparse := CommandLine.parse_congr hsettings hfiles
  refine ⟨hparse, fun stdin readFile => ?_, fun o => follows_of_parse,
    fun e => exists_of_parse_eq_error⟩
  rw [ScanOutcome.run, ScanOutcome.run, hparse]

/-- The same options around two files, in two orders: a frame has at most 300 bytes in both. -/
theorem parse_eq_of_same_settings_two_files :
    let l : CommandLine :=
      { pieces := [.option (.maxSize "300") "--max", .file "a", .option .verbose "-v",
          .option .wideLength "--len16", .file "b", .option .fletcher "--fletcher"]
        isClear := by decide
        once := by decide }
    let l' : CommandLine :=
      { pieces := [.option .fletcher "--fletcher", .file "a", .file "b",
          .option .verbose "--verbose", .option (.maxSize "300") "--max",
          .option .wideLength "--len16"]
        isClear := by decide
        once := by decide }
    (∀ s, s ∈ l.settings ↔ s ∈ l'.settings) ∧ l.files = l'.files ∧
      parse ["--max", "300", "a", "-v", "--len16", "b", "--fletcher"] =
        parse ["--fletcher", "a", "b", "--verbose", "--max", "300", "--len16"] ∧
      ∃ o, parse ["--max", "300", "a", "-v", "--len16", "b", "--fletcher"] = .ok o ∧
        o.format.maxSize = 300 := by
  intro l l'
  have hsettings : ∀ s, s ∈ l.settings ↔ s ∈ l'.settings := by
    intro s
    simp only [l, l', CommandLine.settings, List.filterMap_cons, List.filterMap_nil,
      CommandPiece.setting?, List.mem_cons, List.not_mem_nil]
    tauto
  obtain ⟨hsame, -, hfollows, -⟩ := parse_eq_of_same_settings l l' hsettings rfl
  refine ⟨hsettings, rfl, hsame, _, rfl, ?_⟩
  have hread : readMaxSize "300" = .ok 300 := rfl
  have hmax := (hfollows _ rfl).maxSize_of_mem "300" (List.mem_cons_self ..)
  exact (Except.ok.inj (hread.symm.trans hmax)).symm

end ScanOptions

end WireCodec
