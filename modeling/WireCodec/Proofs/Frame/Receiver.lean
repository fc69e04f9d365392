import Mathlib.Data.List.Induction
import WireCodec.Proofs.Frame.Parts

/-!
# The receiver of a stream as a record

A `WireCodec.StreamState` holds no more than what its case needs. A receiver that is updated in
place is a record of four fields instead (`WireCodec.Receiver`): the phase it is in, a buffer, a
count of the bytes in it, and a flag for a frame that the last byte has completed. It *can* hold
nonsense: a count that is not that of the buffer, bytes of an old frame in a new one, a flag that
outlives its frame. Its step `WireCodec.Receiver.push` changes the fields one after another, leaves
the bytes of a completed frame where they are until the next byte comes, and reads the buffer at
its places (`WireCodec.OutOfRange`).

None of that nonsense comes about. A stream state stands for one record
(`WireCodec.StreamState.toReceiver`), and a byte does to the record what it does to the state,
without an access out of range (`WireCodec.Receiver.push_toReceiver`). So behind any bytes and
resets the record is the one of a state that keeps its invariant, and that says what its fields are
(`WireCodec.Receiver.obeyAll_isSound`).
-/

namespace WireCodec

/-! ### Receivers -/

/-- **What a receiver waits for.** -/
inductive ScanPhase
  /-- The first sync byte. -/
  | seekSync0
  /-- The second sync byte. -/
  | seekSync1
  /-- The rest of a frame. -/
  | accumulating
deriving DecidableEq, Repr

/-- **A receiver.** -/
structure Receiver where
  /-- What it waits for. -/
  phase : ScanPhase
  /-- The bytes of the frame in progress, or of the one just completed. -/
  buffer : List UInt8
  /-- How many bytes have been put into the buffer. -/
  count : Nat
  /-- The last byte has completed the frame in the buffer. -/
  complete : Bool
deriving DecidableEq, Repr

namespace Receiver

/-- A receiver at the start of a stream. -/
def fresh : Receiver := ⟨.seekSync0, [], 0, false⟩

/-- The frame that the last byte completed, whether or not its checksum is right. -/
def frame? (r : Receiver) : Option (List UInt8) :=
  if r.complete then some r.buffer else none

/-- Start with a first sync byte. -/
def start (r : Receiver) (byte : UInt8) : Receiver :=
  { r with buffer := [byte], count := 1, phase := .seekSync1 }

/-- Put a byte into the buffer. -/
def put (r : Receiver) (byte : UInt8) : Receiver :=
  { r with buffer := r.buffer ++ [byte], count := r.count + 1 }

variable (f : FrameFinder)

/-- The frame in the buffer is complete: it stays there, and its checksum is looked at. Of a frame
that is thrown away, the type is looked at as well. -/
def finish (r : Receiver) : Except OutOfRange (Receiver × Option FrameVerdict) := do
  let r := { r with phase := .seekSync0, complete := true }
  if ← f.format.checksum.check r.buffer then
    return (r, some .valid)
  else
    let _ ← byteAt r.buffer 2
    return (r, some .invalid)

/-- A frame in progress is given up at the greatest size. -/
def limit (r : Receiver) : Receiver :=
  if f.format.maxSize ≤ r.count then fresh else r

/-- The frame in progress is as long as it declares, or has reached the greatest size, or goes
on. -/
def collect (r : Receiver) : Except OutOfRange (Receiver × Option FrameVerdict) := do
  match ← f.format.lengthAt r.buffer with
  | some n => if r.count = n + f.format.overhead then r.finish f else return (r.limit f, none)
  | none => return (r.limit f, none)

/-- **Take in one byte.** -/
def push (r : Receiver) (byte : UInt8) : Except OutOfRange (Receiver × Option FrameVerdict) :=
  let r := { r with complete := false }
  match r.phase with
  | .seekSync0 =>
    let r := { r with buffer := [], count := 0 }
    .ok (if byte = f.format.sync0 then r.start byte else r, none)
  | .seekSync1 =>
    if byte = f.format.sync1 then .ok ({ r.put byte with phase := .accumulating }, none)
    else if byte = f.format.sync0 then .ok (r.start byte, none)
    else .ok (fresh, none)
  | .accumulating => (r.put byte).collect f

end Receiver

/-! ### States as records -/

/-- What a state waits for. -/
def StreamState.phase : StreamState → ScanPhase
  | hunting => .seekSync0
  | completed _ => .seekSync0
  | anchored _ => .seekSync1
  | collecting _ => .accumulating

/-- **The record that a state stands for.** -/
def StreamState.toReceiver : StreamState → Receiver
  | hunting => .fresh
  | completed frame => ⟨.seekSync0, frame.toList, frame.size, true⟩
  | anchored sync0 => ⟨.seekSync1, [sync0], 1, false⟩
  | collecting bytes => ⟨.accumulating, bytes.toList, bytes.size, false⟩

namespace Receiver

variable (f : FrameFinder)

@[simp] theorem phase_toReceiver (s : StreamState) : s.toReceiver.phase = s.phase := by
  cases s <;> rfl

@[simp] theorem buffer_toReceiver (s : StreamState) : s.toReceiver.buffer = s.buffer := by
  cases s <;> rfl

@[simp] theorem count_toReceiver (s : StreamState) : s.toReceiver.count = s.count := by
  cases s <;> rfl

@[simp] theorem frame?_toReceiver (s : StreamState) : s.toReceiver.frame? = s.frame? := by
  cases s <;> rfl

theorem put_toReceiver (bytes : Array UInt8) (b : UInt8) :
    (StreamState.collecting bytes).toReceiver.put b =
      (StreamState.collecting (bytes.push b)).toReceiver := by
  simp [put, StreamState.toReceiver]

/-- A byte that belongs to no frame so far. -/
theorem anchor_toReceiver (b : UInt8) :
    (if b = f.format.sync0 then fresh.start b else fresh) = (f.anchor b).toReceiver := by
  unfold FrameFinder.anchor
  split <;> rfl

/-- **A complete frame is judged without an access out of range**: it is longer than its header. -/
theorem finish_toReceiver {bytes : Array UInt8} (h : f.IsWhole bytes.toList) :
    (StreamState.collecting bytes).toReceiver.finish f =
      .ok ((StreamState.completed bytes).toReceiver, some (f.judge bytes.toList)) := by
  obtain ⟨n, hn, -⟩ := h
  have hheader := f.format.headerLength_le_of_bodyLength? hn
  have hlong : 2 < bytes.toList.length := f.format.two_lt_headerLength.trans_le hheader
  rw [FrameFinder.judge]
  cases hverify : f.format.checksum.verify bytes.toList <;>
    simp [finish, StreamState.toReceiver, Checksum.check_eq, hverify, bind, Except.bind, pure,
      Except.pure, byteAt_eq (List.getElem?_eq_getElem hlong)]

/-- A frame that is not complete is given up at the greatest size. -/
theorem limit_toReceiver {bytes : Array UInt8} (h : ¬f.IsWhole bytes.toList) :
    ((StreamState.collecting bytes).toReceiver.limit f, none) =
      ((f.collect bytes).1.toReceiver, (f.collect bytes).2) := by
  by_cases hfull : f.format.maxSize ≤ bytes.size
  · rw [FrameFinder.collect_of_full f h hfull, limit, count_toReceiver, StreamState.count,
      if_pos hfull]
    rfl
  · rw [FrameFinder.collect_of_partial f h (Nat.lt_of_not_le hfull), limit, count_toReceiver,
      StreamState.count, if_neg hfull]

/-- Collecting does to the record what it does to the state. -/
theorem collect_toReceiver (bytes : Array UInt8) :
    (StreamState.collecting bytes).toReceiver.collect f =
      .ok ((f.collect bytes).1.toReceiver, (f.collect bytes).2) := by
  rw [collect, buffer_toReceiver, count_toReceiver, StreamState.buffer, StreamState.count,
    f.format.lengthAt_eq]
  simp only [bind, Except.bind, pure, Except.pure]
  by_cases hw : f.IsWhole bytes.toList
  · obtain ⟨n, hn, hlength⟩ := id hw
    rw [hn, FrameFinder.collect_of_isWhole f hw, ← finish_toReceiver f hw]
    exact if_pos hlength
  · rw [← limit_toReceiver f hw]
    cases hn : f.format.bodyLength? bytes.toList with
    | none => rfl
    | some n => exact if_neg fun hlength => hw ⟨n, hn, hlength⟩

/-- **A byte does to the record what it does to the state**, without an access out of range. -/
theorem push_toReceiver (s : StreamState) (b : UInt8) :
    s.toReceiver.push f b = .ok ((f.push s b).1.toReceiver, (f.push s b).2) := by
  have hhunting : fresh.push f b = .ok ((f.anchor b).toReceiver, none) := by
    rw [← anchor_toReceiver]
    rfl
  cases s with
  | hunting => exact hhunting
  -- The flag and the buffer of the old frame are cleared before the byte is looked at.
  | completed frame => exact hhunting
  | anchored sync0 =>
    rw [FrameFinder.push]
    by_cases hb : b = f.format.sync1
    · rw [if_pos hb]
      exact if_pos hb
    · rw [if_neg hb, FrameFinder.anchor]
      refine (if_neg hb).trans ?_
      by_cases hfirst : b = f.format.sync0
      · rw [if_pos hfirst, if_pos hfirst]
        rfl
      · rw [if_neg hfirst, if_neg hfirst]
        rfl
  | collecting bytes =>
    rw [FrameFinder.push, ← collect_toReceiver, ← put_toReceiver]
    rfl

end Receiver

/-! ### Completed frames -/

namespace FrameFinder

variable (f : FrameFinder) {s : StreamState} {b : UInt8}

/-- **A byte with a verdict completes a frame** that is not too large and can be taken apart. -/
theorem push_of_verdict {verdict : FrameVerdict} (h : f.Tracks s)
    (hpush : (f.push s b).2 = some verdict) :
    ∃ frame, (f.push s b).1 = .completed frame ∧ frame.size ≤ f.format.maxSize ∧
      (f.format.parse? frame.toList).isSome := by
  have hstep := f.steps_push s b
  generalize f.push s b = behind at hpush hstep ⊢
  cases hstep with
  | complete whole =>
    obtain ⟨⟨rest, hrest⟩, hmax, -⟩ := h
    obtain ⟨n, hn, hlength⟩ := whole
    exact ⟨_, rfl, by rw [Array.size_push]; exact hmax,
      FrameFormat.isSome_parse? ⟨rest ++ [b], by simp [hrest]⟩ hn hlength⟩
  | giveUp => cases hpush
  | goOn => cases hpush
  | second => cases hpush
  | anchor => cases hpush
  | pass => cases hpush

/-- A byte without a verdict completes no frame. -/
theorem frame?_push_of_none (hpush : (f.push s b).2 = none) : (f.push s b).1.frame? = none := by
  have hstep := f.steps_push s b
  generalize f.push s b = behind at hpush hstep ⊢
  cases hstep with
  | complete => cases hpush
  | giveUp => rfl
  | goOn => rfl
  | second => rfl
  | anchor => rfl
  | pass => rfl

end FrameFinder

/-! ### Any commands -/

/-- **What is done to a receiver.** -/
inductive ReceiverCommand
  /-- A byte of the stream comes. -/
  | push (byte : UInt8)
  /-- The receiver is to forget the stream. -/
  | reset
deriving DecidableEq, Repr

namespace FrameFinder

variable (f : FrameFinder)

/-- What a command does to a state, and the verdict on the frame that it completes. -/
def obey (s : StreamState) : ReceiverCommand → StreamState × Option FrameVerdict
  | .push b => f.push s b
  | .reset => (.fresh, none)

/-- **The state behind any commands** from the start, and the verdict of the last one. -/
def obeyAll (commands : List ReceiverCommand) : StreamState × Option FrameVerdict :=
  commands.foldl (fun last command => f.obey last.1 command) (.fresh, none)

theorem obeyAll_concat (commands : List ReceiverCommand) (command : ReceiverCommand) :
    f.obeyAll (commands ++ [command]) = f.obey (f.obeyAll commands).1 command := by
  rw [obeyAll, List.foldl_append]
  rfl

theorem tracks_obeyAll (commands : List ReceiverCommand) : f.Tracks (f.obeyAll commands).1 := by
  induction commands using List.reverseRecOn with
  | nil => exact f.tracks_fresh
  | append_singleton commands command ih =>
    rw [obeyAll_concat]
    cases command with
    | push b => exact f.tracks_push ih b
    | reset => exact f.tracks_fresh

end FrameFinder

namespace Receiver

variable (f : FrameFinder)

/-- What a command does to a receiver, and the verdict on the frame that it completes. -/
def obey (r : Receiver) : ReceiverCommand → Except OutOfRange (Receiver × Option FrameVerdict)
  | .push b => r.push f b
  | .reset => .ok (fresh, none)

/-- **The receiver behind any commands** from the start, and the verdict of the last one. -/
def obeyAll (commands : List ReceiverCommand) :
    Except OutOfRange (Receiver × Option FrameVerdict) :=
  commands.foldlM (fun last command => last.1.obey f command) (fresh, none)

theorem obey_toReceiver (s : StreamState) (command : ReceiverCommand) :
    s.toReceiver.obey f command =
      .ok ((f.obey s command).1.toReceiver, (f.obey s command).2) := by
  cases command with
  | push b => exact push_toReceiver f s b
  | reset => rfl

/-- **Any commands do to the record what they do to the state.** -/
theorem obeyAll_eq (commands : List ReceiverCommand) :
    obeyAll f commands =
      .ok ((f.obeyAll commands).1.toReceiver, (f.obeyAll commands).2) := by
  induction commands using List.reverseRecOn with
  | nil => rfl
  | append_singleton commands command ih =>
    rw [FrameFinder.obeyAll_concat, ← obey_toReceiver, obeyAll, List.foldlM_append, ← obeyAll, ih]
    exact bind_pure ((f.obeyAll commands).1.toReceiver.obey f command)

/-! ### The fields of a receiver -/

/-- **What the fields of a receiver are** behind a command with the given verdict. -/
structure IsSound (r : Receiver) (verdict? : Option FrameVerdict) : Prop where
  /-- Before the first sync byte nothing is kept, but for a frame that was just completed. -/
  seekSync0 : r.phase = .seekSync0 → verdict? = none → r.buffer = [] ∧ r.count = 0
  /-- Before the second sync byte the first one is kept. -/
  seekSync1 : r.phase = .seekSync1 → r.buffer = [f.format.sync0] ∧ r.count = 1
  /-- Behind the sync bytes the start of a frame is kept, which is neither complete nor too long. -/
  accumulating : r.phase = .accumulating →
    (∃ rest, r.buffer = f.format.sync0 :: f.format.sync1 :: rest) ∧
      r.count = r.buffer.length ∧ 2 ≤ r.count ∧ r.count < f.format.maxSize ∧
      ∀ n, f.format.bodyLength? r.buffer = some n → r.count < n + f.format.overhead
  /-- There is a frame exactly if the command has completed one. -/
  isSome_frame? : r.frame?.isSome ↔ verdict?.isSome
  /-- That frame is in the buffer, it is not too large, and it can be taken apart. -/
  completed : ∀ frame, r.frame? = some frame →
    r.phase = .seekSync0 ∧ r.buffer = frame ∧ r.count = frame.length ∧
      frame.length ≤ f.format.maxSize ∧ (f.format.parse? frame).isSome

/-- A state without a completed frame keeps the start of one at most. -/
theorem isSound_of_tracks {s : StreamState} (h : f.Tracks s) (hframe : s.frame? = none) :
    IsSound f s.toReceiver none := by
  cases s with
  | hunting => exact ⟨fun _ _ => ⟨rfl, rfl⟩, nofun, nofun, Iff.rfl, nofun⟩
  | completed frame => exact nomatch hframe
  | anchored sync0 =>
    have hbuffer : [sync0] = [f.format.sync0] := congrArg (fun b => [b]) h
    exact ⟨nofun, fun _ => ⟨hbuffer, rfl⟩, nofun, Iff.rfl, nofun⟩
  | collecting bytes =>
    obtain ⟨⟨rest, hrest⟩, hmax, hlen⟩ := h
    have htwo : 2 ≤ bytes.toList.length := by simp [hrest]
    exact ⟨nofun, nofun, fun _ => ⟨⟨rest, hrest⟩, rfl, htwo, hmax, hlen⟩, Iff.rfl, nofun⟩

/-- A completed frame is all that is kept. -/
theorem isSound_completed {frame : Array UInt8} (verdict : FrameVerdict)
    (hmax : frame.size ≤ f.format.maxSize) (hparse : (f.format.parse? frame.toList).isSome) :
    IsSound f (StreamState.completed frame).toReceiver (some verdict) := by
  refine ⟨nofun, nofun, nofun, Iff.rfl, ?_⟩
  rintro _ ⟨⟩
  exact ⟨rfl, rfl, rfl, hmax, hparse⟩

/-- **One command**, whatever came before. -/
theorem isSound_obey {s : StreamState} (h : f.Tracks s) (command : ReceiverCommand) :
    IsSound f (f.obey s command).1.toReceiver (f.obey s command).2 := by
  cases command with
  | reset => exact isSound_of_tracks f f.tracks_fresh rfl
  | push b =>
    rw [FrameFinder.obey]
    cases hverdict : (f.push s b).2 with
    | none => exact isSound_of_tracks f (f.tracks_push h b) (f.frame?_push_of_none hverdict)
    | some verdict =>
      obtain ⟨frame, hstate, hmax, hparse⟩ := f.push_of_verdict h hverdict
      rw [hstate]
      exact isSound_completed f verdict hmax hparse

/-- **Behind any commands**, given to a receiver with one finder from the start of a stream, the
fields of the receiver are what they are to be, and no access was out of range on the way. -/
theorem obeyAll_isSound (commands : List ReceiverCommand) :
    ∃ r verdict?, obeyAll f commands = .ok (r, verdict?) ∧
      (r, verdict?) = ((f.obeyAll commands).1.toReceiver, (f.obeyAll commands).2) ∧
      IsSound f r verdict? := by
  refine ⟨_, _, obeyAll_eq f commands, rfl, ?_⟩
  rcases List.eq_nil_or_concat commands with rfl | ⟨commands, command, rfl⟩
  · exact isSound_of_tracks f f.tracks_fresh rfl
  · rw [List.concat_eq_append, FrameFinder.obeyAll_concat]
    exact isSound_obey f (f.tracks_obeyAll commands) command

end Receiver

end WireCodec
