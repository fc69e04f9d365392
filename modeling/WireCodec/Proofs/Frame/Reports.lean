import WireCodec.Frame.Finder

/-!
# What a stream makes a finder report

`WireCodec.FrameFinder.push` is one step, and `WireCodec.FrameFinder.pushAll` collects the frames
of many. Statements about a whole stream need more than that list: *which* byte has completed a
frame. So this file adds the history of a run, one entry for each byte
(`WireCodec.FrameFinder.reports`), beside its last state (`WireCodec.FrameFinder.run`), and shows
that `pushAll` is the two together (`WireCodec.FrameFinder.pushAll_eq`).

What a state knows about a stream is the bytes that may still become part of a frame,
`WireCodec.StreamState.pending`. `WireCodec.FrameFinder.Tracks` is the invariant that goes with
them: they are the beginning of a frame that is neither complete nor too long. Every byte keeps it
(`WireCodec.FrameFinder.tracks_push`).

What a byte can do at all is said by rules, `WireCodec.FrameFinder.Steps`; a fact about one byte
goes through them instead of through the cases of the step.
-/

namespace WireCodec

/-! ### The declared length -/

namespace FrameFormat

variable (f : FrameFormat)

/-- The declared length is read off the header alone. -/
theorem bodyLength?_take (frame : List UInt8) :
    f.bodyLength? (frame.take f.headerLength) = f.bodyLength? frame := by
  unfold bodyLength?
  by_cases h : f.headerLength ≤ frame.length
  · have hw : (frame.take f.headerLength).drop 3 = (frame.drop 3).take f.lengthWidth.bytes := by
      rw [List.drop_take, headerLength, Nat.add_sub_cancel_left]
    rw [if_pos h, if_pos (by rw [List.length_take]; omega), hw, List.take_take, Nat.min_self]
  · rw [if_neg h, if_neg (by rw [List.length_take]; omega)]

/-- Bytes behind a complete header do not change the declared length. -/
theorem bodyLength?_append {frame : List UInt8} (h : f.headerLength ≤ frame.length)
    (rest : List UInt8) : f.bodyLength? (frame ++ rest) = f.bodyLength? frame := by
  rw [← bodyLength?_take, List.take_append_of_le_length h, bodyLength?_take]

/-- A header is complete exactly when it declares a length. -/
theorem bodyLength?_eq_none_iff {frame : List UInt8} :
    f.bodyLength? frame = none ↔ frame.length < f.headerLength := by
  unfold bodyLength?
  split <;> simp <;> omega

theorem headerLength_le_of_bodyLength? {frame : List UInt8} {n : Nat}
    (h : f.bodyLength? frame = some n) : f.headerLength ≤ frame.length := by
  rcases Nat.lt_or_ge frame.length f.headerLength with hlt | hle
  · rw [f.bodyLength?_eq_none_iff.mpr hlt] at h
    exact absurd h (by simp)
  · exact hle

theorem headerLength_lt_overhead : f.headerLength < f.overhead := by
  have : 0 < f.checksum.fieldLength := by cases f.checksum <;> decide
  rw [overhead]
  omega

theorem two_lt_headerLength : 2 < f.headerLength := by
  rw [headerLength]
  omega

theorem two_lt_overhead : 2 < f.overhead :=
  Nat.lt_trans f.two_lt_headerLength f.headerLength_lt_overhead

end FrameFormat

namespace FrameFinder

variable (f : FrameFinder)

theorem expectedSize?_eq (bytes : Array UInt8) :
    f.expectedSize? bytes = (f.format.bodyLength? bytes.toList).map (· + f.format.overhead) := by
  rw [expectedSize?, Array.toList_extract, List.extract_eq_take_drop, List.drop_zero, Nat.sub_zero,
    FrameFormat.bodyLength?_take]

/-! ### The history of a run -/

/-- The state behind many bytes. -/
def run (s : StreamState) : List UInt8 → StreamState
  | [] => s
  | b :: bytes => run (f.push s b).1 bytes

/-- **What one byte reports**: the frame that it completes, if it completes one. -/
def report (s : StreamState) (b : UInt8) : Option Detection :=
  (f.push s b).2.map fun verdict => ⟨verdict, (f.push s b).1.buffer⟩

/-- **What each byte of a stream reports.** -/
def reports (s : StreamState) : List UInt8 → List (Option Detection)
  | [] => []
  | b :: bytes => f.report s b :: reports (f.push s b).1 bytes

@[simp] theorem run_nil (s : StreamState) : f.run s [] = s := rfl

@[simp] theorem run_cons (s : StreamState) (b : UInt8) (bytes : List UInt8) :
    f.run s (b :: bytes) = f.run (f.push s b).1 bytes := rfl

@[simp] theorem reports_nil (s : StreamState) : f.reports s [] = [] := rfl

@[simp] theorem reports_cons (s : StreamState) (b : UInt8) (bytes : List UInt8) :
    f.reports s (b :: bytes) = f.report s b :: f.reports (f.push s b).1 bytes := rfl

@[simp] theorem length_reports (s : StreamState) (bytes : List UInt8) :
    (f.reports s bytes).length = bytes.length := by
  induction bytes generalizing s with
  | nil => rfl
  | cons b bytes ih => rw [reports_cons, List.length_cons, List.length_cons, ih]

theorem run_append (s : StreamState) (first second : List UInt8) :
    f.run s (first ++ second) = f.run (f.run s first) second := by
  induction first generalizing s with
  | nil => rfl
  | cons b first ih => exact ih _

theorem reports_append (s : StreamState) (first second : List UInt8) :
    f.reports s (first ++ second) = f.reports s first ++ f.reports (f.run s first) second := by
  induction first generalizing s with
  | nil => rfl
  | cons b first ih => rw [List.cons_append, reports_cons, reports_cons, ih, run_cons,
      List.cons_append]

theorem pushInto_eq (s : StreamState) (found : Array Detection) (b : UInt8) :
    f.pushInto (s, found) b = ((f.push s b).1, found ++ (f.report s b).toArray) := by
  obtain ⟨⟨s', verdict⟩, hp⟩ : ∃ p, f.push s b = p := ⟨_, rfl⟩
  cases verdict <;> simp [pushInto, report, hp]

theorem foldl_pushInto (s : StreamState) (found : Array Detection) (bytes : List UInt8) :
    bytes.foldl f.pushInto (s, found) =
      (f.run s bytes, found ++ ((f.reports s bytes).filterMap id).toArray) := by
  induction bytes generalizing s found with
  | nil => simp
  | cons b bytes ih =>
    rw [List.foldl_cons, pushInto_eq, ih, run_cons, reports_cons]
    cases f.report s b <;> simp

/-- **Taking in many bytes** is their run, and of their reports the frames. -/
theorem pushAll_eq (s : StreamState) (bytes : List UInt8) :
    f.pushAll s bytes = (f.run s bytes, ((f.reports s bytes).filterMap id).toArray) := by
  rw [pushAll, foldl_pushInto]
  simp

end FrameFinder

/-! ### Pending bytes -/

/-- **The bytes that may still become part of a frame.** -/
def StreamState.pending : StreamState → List UInt8
  | hunting => []
  | completed _ => []
  | anchored sync0 => [sync0]
  | collecting bytes => bytes.toList

namespace FrameFinder

variable (f : FrameFinder)

/-- **The pending bytes are the beginning of a frame** that is neither complete nor as long as
frames may be. -/
def Tracks : StreamState → Prop
  | .hunting => True
  | .completed _ => True
  | .anchored sync0 => sync0 = f.format.sync0
  | .collecting bytes =>
    (∃ rest, bytes.toList = f.format.sync0 :: f.format.sync1 :: rest) ∧
      bytes.size < f.format.maxSize ∧
      ∀ n, f.format.bodyLength? bytes.toList = some n → bytes.size < n + f.format.overhead

theorem two_lt_maxSize : 2 < f.format.maxSize :=
  Nat.lt_trans f.format.two_lt_overhead f.hasRoom

theorem tracks_fresh : f.Tracks .fresh := trivial

theorem tracks_anchor (b : UInt8) : f.Tracks (f.anchor b) := by
  unfold anchor
  by_cases hb : b = f.format.sync0
  · rw [if_pos hb]
    exact hb
  · rw [if_neg hb]
    trivial

/-- **The bytes are a whole frame**: they are as long as their header declares. -/
def IsWhole (bytes : List UInt8) : Prop :=
  ∃ n, f.format.bodyLength? bytes = some n ∧ bytes.length = n + f.format.overhead

theorem expectedSize?_eq_some_size_iff (bytes : Array UInt8) :
    f.expectedSize? bytes = some bytes.size ↔ f.IsWhole bytes.toList := by
  rw [expectedSize?_eq, Option.map_eq_some_iff]
  constructor
  · rintro ⟨n, hn, hsize⟩
    exact ⟨n, hn, by rw [Array.length_toList, hsize]⟩
  · rintro ⟨n, hn, hsize⟩
    exact ⟨n, hn, by rw [← hsize, Array.length_toList]⟩

/-- A byte that makes a whole frame completes it. -/
theorem collect_of_isWhole {bytes : Array UInt8} (h : f.IsWhole bytes.toList) :
    f.collect bytes = (.completed bytes, some (f.judge bytes.toList)) := by
  rw [collect, if_pos ((f.expectedSize?_eq_some_size_iff bytes).mpr h)]

/-- A frame that has reached the greatest size without being whole is given up. -/
theorem collect_of_full {bytes : Array UInt8} (h : ¬f.IsWhole bytes.toList)
    (hfull : f.format.maxSize ≤ bytes.size) : f.collect bytes = (.hunting, none) := by
  rw [collect, if_neg (fun he => h ((f.expectedSize?_eq_some_size_iff bytes).mp he)),
    if_pos hfull]

/-- Below the greatest size, a frame that is not whole is collected on. -/
theorem collect_of_partial {bytes : Array UInt8} (h : ¬f.IsWhole bytes.toList)
    (hroom : bytes.size < f.format.maxSize) : f.collect bytes = (.collecting bytes, none) := by
  rw [collect, if_neg (fun he => h ((f.expectedSize?_eq_some_size_iff bytes).mp he)),
    if_neg (by omega)]

/-! ### What one byte can do -/

/-- **A byte is free** in a state in which no frame is collected and it does not begin one as the
second sync byte. -/
def IsFree (s : StreamState) (b : UInt8) : Prop :=
  (∀ bytes, s ≠ .collecting bytes) ∧ ∀ sync0, s = .anchored sync0 → b ≠ f.format.sync1

/-- **The rules by which a byte leads from state to state**, one for each way in which it can. -/
inductive Steps : StreamState → UInt8 → StreamState × Option FrameVerdict → Prop
  /-- A byte that makes a frame whole completes it. -/
  | complete {bytes : Array UInt8} {b : UInt8} (whole : f.IsWhole (bytes.push b).toList) :
    Steps (.collecting bytes) b
      (.completed (bytes.push b), some (f.judge (bytes.push b).toList))
  /-- A frame that is as long as frames may be, and is not whole, is given up. -/
  | giveUp {bytes : Array UInt8} {b : UInt8} (partly : ¬f.IsWhole (bytes.push b).toList)
    (full : f.format.maxSize ≤ bytes.size + 1) : Steps (.collecting bytes) b (.hunting, none)
  /-- Any other frame goes on. -/
  | goOn {bytes : Array UInt8} {b : UInt8} (partly : ¬f.IsWhole (bytes.push b).toList)
    (room : bytes.size + 1 < f.format.maxSize) :
    Steps (.collecting bytes) b (.collecting (bytes.push b), none)
  /-- The second sync byte behind the first one is the start of a frame. -/
  | second (sync0 : UInt8) :
    Steps (.anchored sync0) f.format.sync1 (.collecting #[sync0, f.format.sync1], none)
  /-- A free byte may be a first sync byte. -/
  | anchor {s : StreamState} (free : f.IsFree s f.format.sync0) :
    Steps s f.format.sync0 (.anchored f.format.sync0, none)
  /-- Any other free byte is passed over. -/
  | pass {s : StreamState} {b : UInt8} (free : f.IsFree s b) (other : b ≠ f.format.sync0) :
    Steps s b (.hunting, none)

/-- **A byte does what one of the rules says.** -/
theorem steps_push (s : StreamState) (b : UInt8) : f.Steps s b (f.push s b) := by
  have hanchor : f.IsFree s b → f.Steps s b (f.anchor b, none) := by
    intro hfree
    unfold FrameFinder.anchor
    split
    case isTrue hb =>
      subst hb
      exact .anchor hfree
    case isFalse hb => exact .pass hfree hb
  cases s with
  | hunting => exact hanchor ⟨by simp, by simp⟩
  | completed frame => exact hanchor ⟨by simp, by simp⟩
  | anchored sync0 =>
    rw [push]
    split
    case isTrue hb =>
      subst hb
      exact .second sync0
    case isFalse hb => exact hanchor ⟨by simp, fun _ _ => hb⟩
  | collecting bytes =>
    rw [push]
    by_cases hw : f.IsWhole (bytes.push b).toList
    · rw [collect_of_isWhole f hw]
      exact .complete hw
    by_cases hfull : f.format.maxSize ≤ (bytes.push b).size
    · rw [collect_of_full f hw hfull]
      exact .giveUp hw (by simpa using hfull)
    · rw [collect_of_partial f hw (Nat.lt_of_not_le hfull)]
      exact .goOn hw (by simpa using hfull)

/-! ### The invariant -/

/-- **Collecting keeps the invariant**: as long as a frame grows by one byte at a time, it cannot
become longer than it declares without having been whole. -/
theorem tracks_goOn {bytes : Array UInt8} {b : UInt8} (h : f.Tracks (.collecting bytes))
    (partly : ¬f.IsWhole (bytes.push b).toList) (room : bytes.size + 1 < f.format.maxSize) :
    f.Tracks (.collecting (bytes.push b)) := by
  obtain ⟨⟨rest, hrest⟩, -, hlen⟩ := h
  refine ⟨⟨rest ++ [b], by simp [hrest]⟩, by rwa [Array.size_push], fun n hn => ?_⟩
  have hne : (bytes.push b).size ≠ n + f.format.overhead := fun he =>
    partly ⟨n, hn, by rw [Array.length_toList, he]⟩
  rw [Array.toList_push] at hn
  rw [Array.size_push] at hne ⊢
  rcases Nat.lt_or_ge bytes.toList.length f.format.headerLength with hshort | hlong
  · have := f.format.headerLength_lt_overhead
    rw [Array.length_toList] at hshort
    omega
  · rw [f.format.bodyLength?_append hlong] at hn
    have := hlen n hn
    omega

/-- **Every byte keeps the invariant.** -/
theorem tracks_push {s : StreamState} (h : f.Tracks s) (b : UInt8) : f.Tracks (f.push s b).1 := by
  have hstep := f.steps_push s b
  generalize f.push s b = behind at hstep ⊢
  cases hstep with
  | complete => trivial
  | giveUp => trivial
  | goOn partly room => exact f.tracks_goOn h partly room
  | second sync0 =>
    obtain rfl : sync0 = f.format.sync0 := h
    refine ⟨⟨[], rfl⟩, f.two_lt_maxSize, fun n _ => ?_⟩
    exact Nat.lt_of_lt_of_le f.format.two_lt_overhead (Nat.le_add_left _ n)
  | anchor => exact rfl
  | pass => trivial

end FrameFinder

end WireCodec
