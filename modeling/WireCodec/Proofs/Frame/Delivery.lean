import Mathlib.Data.List.Chain
import WireCodec.Proofs.Frame.Encode
import WireCodec.Proofs.Frame.Reports

/-!
# Frames in a noisy stream

A stream of encoded frames with arbitrary bytes between them is delivered without loss: the finder
reports every frame on its last byte, as valid, and nothing else
(`WireCodec.FrameFinder.reports_encodedStream`). All that is asked of the bytes between two frames
is that the sync bytes do not stand next to each other in them, nor across the border to the next
frame (`WireCodec.FrameFormat.Quiet`). What is in the bodies does not matter.

The invariant at the start of a frame is `WireCodec.FrameFinder.Between`: the finder collects
nothing, and its pending byte, if there is one, may be followed by a frame. Bytes of a gap keep it
(`WireCodec.FrameFinder.between_push`), and a frame restores it
(`WireCodec.FrameFinder.reports_frame`).
-/

namespace WireCodec

/-! ### Streams -/

/-- **Bytes that may stand before a frame**: the two sync bytes are nowhere next to each other, not
even when the first byte of a frame follows. -/
def FrameFormat.Quiet (f : FrameFormat) (gap : List UInt8) : Prop :=
  (gap ++ [f.sync0]).IsChain fun a b => ¬(a = f.sync0 ∧ b = f.sync1)

instance (f : FrameFormat) (gap : List UInt8) : Decidable (f.Quiet gap) :=
  inferInstanceAs (Decidable ((gap ++ [f.sync0]).IsChain _))

/-- A frame with the bytes between it and the next one. -/
structure Segment where
  /-- All bytes of the frame. -/
  frame : List UInt8
  /-- The bytes behind the frame. -/
  gap : List UInt8

namespace Segment

/-- **The segment is one of an orderly stream**: its frame was encoded, and its gap is quiet. -/
def IsOrderly (f : FrameFormat) (s : Segment) : Prop :=
  (∃ packetType body, f.encode packetType body = .ok s.frame) ∧ f.Quiet s.gap

/-- The bytes of the segment. -/
def bytes (s : Segment) : List UInt8 :=
  s.frame ++ s.gap

/-- What the bytes of the segment are to report: the frame, on its last byte. -/
def expected (s : Segment) : List (Option Detection) :=
  List.replicate (s.frame.length - 1) none ++ some ⟨.valid, s.frame⟩ ::
    List.replicate s.gap.length none

end Segment

namespace FrameFinder

variable (f : FrameFinder) {s : StreamState}

/-! ### Gaps -/

/-- **The finder is between two frames**: it collects nothing, and its pending bytes together with
those of `gap`, which are still to come, are quiet. -/
def Between (s : StreamState) (gap : List UInt8) : Prop :=
  (∀ bytes, s ≠ .collecting bytes) ∧ f.Tracks s ∧ f.format.Quiet (s.pending ++ gap)

theorem between_fresh {gap : List UInt8} (h : f.format.Quiet gap) : f.Between .fresh gap :=
  ⟨by simp [StreamState.fresh], f.tracks_fresh, h⟩

theorem between_completed {frame : Array UInt8} {gap : List UInt8} (h : f.format.Quiet gap) :
    f.Between (.completed frame) gap :=
  ⟨by simp, trivial, h⟩

theorem between_anchor {b : UInt8} {gap : List UInt8} (h : f.format.Quiet (b :: gap)) :
    f.Between (f.anchor b) gap := by
  refine ⟨fun bytes => ?_, f.tracks_anchor b, ?_⟩
  · unfold anchor
    split <;> simp
  · unfold anchor
    split
    · exact h
    · exact List.IsChain.tail h

/-- **A byte of a gap** reports nothing and leaves the finder between frames. -/
theorem between_push {b : UInt8} {gap : List UInt8} (h : f.Between s (b :: gap)) :
    f.report s b = none ∧ f.Between (f.push s b).1 gap := by
  obtain ⟨hnot, htracks, hquiet⟩ := h
  cases s with
  | hunting => exact ⟨rfl, f.between_anchor hquiet⟩
  | completed frame => exact ⟨rfl, f.between_anchor hquiet⟩
  | anchored sync0 =>
    have hchain := List.isChain_cons_cons.mp hquiet
    have hb : b ≠ f.format.sync1 := fun hb => hchain.1 ⟨htracks, hb⟩
    rw [report, push, if_neg hb]
    exact ⟨rfl, f.between_anchor hchain.2⟩
  | collecting bytes => exact absurd rfl (hnot bytes)

/-- A whole gap reports nothing and leaves the finder between frames. -/
theorem reports_gap {gap : List UInt8} (h : f.Between s gap) :
    f.reports s gap = List.replicate gap.length none ∧ f.Between (f.run s gap) [] := by
  induction gap generalizing s with
  | nil => exact ⟨rfl, h⟩
  | cons b gap ih =>
    obtain ⟨hreport, hbetween⟩ := f.between_push h
    obtain ⟨hreports, hrun⟩ := ih hbetween
    rw [reports_cons, hreport, hreports]
    exact ⟨rfl, hrun⟩

/-! ### Frames -/

/-- Between frames, a first sync byte is taken for the start of a frame. -/
theorem push_sync0 (h : f.Between s []) :
    f.push s f.format.sync0 = (.anchored f.format.sync0, none) := by
  have hanchor : f.anchor f.format.sync0 = .anchored f.format.sync0 := if_pos rfl
  obtain ⟨hnot, htracks, hquiet⟩ := h
  cases s with
  | hunting => rw [push, hanchor]
  | completed frame => rw [push, hanchor]
  | anchored sync0 =>
    have hne : f.format.sync0 ≠ f.format.sync1 := fun he =>
      (List.isChain_cons_cons.mp hquiet).1 ⟨htracks, he⟩
    rw [push, if_neg hne, hanchor]
  | collecting bytes => exact absurd rfl (hnot bytes)

/-- **The rest of a frame** that the finder has begun to collect reports the frame on its last
byte, and nothing before. -/
theorem reports_collecting {start rest : List UInt8} (hrest : rest ≠ [])
    (hw : f.IsWhole (start ++ rest)) (hmax : (start ++ rest).length ≤ f.format.maxSize) :
    f.reports (.collecting start.toArray) rest =
        List.replicate (rest.length - 1) none ++
          [some ⟨f.judge (start ++ rest), start ++ rest⟩] ∧
      f.run (.collecting start.toArray) rest = .completed (start ++ rest).toArray := by
  induction rest generalizing start with
  | nil => exact absurd rfl hrest
  | cons b rest ih =>
    have hcons : start ++ b :: rest = (start ++ [b]) ++ rest := by simp
    have hpush : start.toArray.push b = (start ++ [b]).toArray := List.push_toArray start b
    rw [hcons] at hw hmax ⊢
    rw [reports_cons, run_cons, report, push, hpush]
    rcases rest with _ | ⟨c, rest⟩
    · rw [List.append_nil] at hw ⊢
      rw [collect_of_isWhole f hw]
      exact ⟨rfl, rfl⟩
    · have hnot : ¬f.IsWhole (start ++ [b]) := by
        -- The frame declares one length only, and it has more bytes than these.
        rintro ⟨n, hn, hlen⟩
        obtain ⟨m, hm, hlen'⟩ := hw
        have hhead := f.format.headerLength_le_of_bodyLength? hn
        rw [f.format.bodyLength?_append hhead, hn] at hm
        cases hm
        rw [List.length_append, List.length_cons] at hlen'
        omega
      have hroom : (start ++ [b]).length < f.format.maxSize := by
        rw [List.length_append, List.length_cons] at hmax
        omega
      obtain ⟨hreports, hrun⟩ := ih (List.cons_ne_nil c rest) hw hmax
      rw [collect_of_partial f hnot hroom]
      refine ⟨?_, hrun⟩
      rw [hreports]
      rfl

/-- **A whole frame is judged on its last byte**, wherever between frames it starts. -/
theorem reports_whole {frame : List UInt8} (h : f.Between s [])
    (hsync : ∃ rest, frame = f.format.sync0 :: f.format.sync1 :: rest) (hw : f.IsWhole frame)
    (hmax : frame.length ≤ f.format.maxSize) :
    f.reports s frame =
        List.replicate (frame.length - 1) none ++ [some ⟨f.judge frame, frame⟩] ∧
      f.run s frame = .completed frame.toArray := by
  obtain ⟨rest, rfl⟩ := hsync
  have hrest : rest ≠ [] := by
    rintro rfl
    obtain ⟨n, -, hlen⟩ := hw
    have := f.format.headerLength_lt_overhead
    have := f.format.two_lt_headerLength
    rw [List.length_cons, List.length_cons, List.length_nil] at hlen
    omega
  have hsync1 : f.push (.anchored f.format.sync0) f.format.sync1 =
      (.collecting [f.format.sync0, f.format.sync1].toArray, none) := by
    rw [push, if_pos rfl]
  have hw' : f.IsWhole ([f.format.sync0, f.format.sync1] ++ rest) := hw
  obtain ⟨hreports, hrun⟩ := f.reports_collecting hrest hw' hmax
  rw [reports_cons, reports_cons, run_cons, run_cons, report, report, f.push_sync0 h, hsync1,
    hreports]
  refine ⟨?_, hrun⟩
  obtain ⟨b, rest, rfl⟩ := List.exists_cons_of_ne_nil hrest
  rfl

/-- An encoded frame is a whole one. -/
theorem isWhole_of_encode {packetType : UInt8} {body frame : List UInt8}
    (hframe : f.format.encode packetType body = .ok frame) : f.IsWhole frame :=
  ⟨_, FrameFormat.bodyLength?_of_encode hframe, FrameFormat.length_of_encode hframe⟩

/-- **An encoded frame is reported as valid on its last byte**, wherever between frames it
starts. -/
theorem reports_frame {packetType : UInt8} {body frame : List UInt8} (h : f.Between s [])
    (hframe : f.format.encode packetType body = .ok frame) :
    f.reports s frame =
        List.replicate (frame.length - 1) none ++ [some ⟨.valid, frame⟩] ∧
      f.run s frame = .completed frame.toArray := by
  have hjudge : f.judge frame = .valid := by
    rw [judge, if_pos (FrameFormat.verify_of_encode hframe)]
  rw [← hjudge]
  exact f.reports_whole h (FrameFormat.exists_eq_sync_of_encode hframe) (f.isWhole_of_encode hframe)
    (FrameFormat.length_le_of_encode hframe)

/-- A frame with the gap behind it reports what it is to report, and leaves the finder between
frames. -/
theorem reports_segment {segment : Segment} (h : f.Between s [])
    (hsegment : segment.IsOrderly f.format) :
    f.reports s segment.bytes = segment.expected ∧ f.Between (f.run s segment.bytes) [] := by
  obtain ⟨⟨packetType, body, hframe⟩, hgap⟩ := hsegment
  obtain ⟨hreports, hrun⟩ := f.reports_frame h hframe
  have hbetween : f.Between (.completed segment.frame.toArray) segment.gap :=
    f.between_completed hgap
  obtain ⟨hreports', hrun'⟩ := f.reports_gap hbetween
  rw [Segment.bytes, reports_append, run_append, hrun, hreports, hreports']
  exact ⟨by simp [Segment.expected], hrun'⟩

theorem reports_segments {segments : List Segment} (h : f.Between s [])
    (hsegments : ∀ segment ∈ segments, segment.IsOrderly f.format) :
    f.reports s (segments.flatMap Segment.bytes) = segments.flatMap Segment.expected := by
  induction segments generalizing s with
  | nil => rfl
  | cons segment segments ih =>
    obtain ⟨hfirst, hothers⟩ := List.forall_mem_cons.mp hsegments
    obtain ⟨hreports, hrun⟩ := f.reports_segment h hfirst
    rw [List.flatMap_cons, List.flatMap_cons, reports_append, hreports, ih hrun hothers]

/-! ### Whole streams -/

theorem filterMap_expected (segments : List Segment) :
    (segments.flatMap Segment.expected).filterMap id =
      segments.map fun segment => ⟨.valid, segment.frame⟩ := by
  induction segments with
  | nil => rfl
  | cons segment segments ih =>
    rw [List.flatMap_cons, List.filterMap_append, ih]
    simp [Segment.expected, List.filterMap_replicate_of_none]

/-- **Frames in a noisy stream are delivered without loss**: of a gap and any number of encoded
frames with gaps behind them, every frame is reported as valid, on its own last byte, and no other
byte reports anything. So taking in the whole stream finds these frames, once each and in order. -/
theorem reports_encodedStream {gap : List UInt8} {segments : List Segment}
    (hgap : f.format.Quiet gap)
    (hsegments : ∀ segment ∈ segments, segment.IsOrderly f.format) :
    f.reports .fresh (gap ++ segments.flatMap Segment.bytes) =
        List.replicate gap.length none ++ segments.flatMap Segment.expected ∧
      (f.pushAll .fresh (gap ++ segments.flatMap Segment.bytes)).2.toList =
        segments.map fun segment => ⟨.valid, segment.frame⟩ := by
  obtain ⟨hreports, hrun⟩ := f.reports_gap (f.between_fresh hgap)
  have hstream : f.reports .fresh (gap ++ segments.flatMap Segment.bytes) =
      List.replicate gap.length none ++ segments.flatMap Segment.expected := by
    rw [reports_append, hreports, f.reports_segments hrun hsegments]
  refine ⟨hstream, ?_⟩
  rw [pushAll_eq, hstream, List.filterMap_append, filterMap_expected]
  simp [List.filterMap_replicate_of_none]

/-- Two frames in noise. The body of the first one holds the sync bytes, and the gaps before both
end in a first sync byte. -/
theorem reports_encodedStream_two :
    let f : FrameFinder := ⟨FrameFormat.ofSync 0xA5 0x5A, by decide⟩
    let gap : List UInt8 := [0x5A, 0xA5]
    let segments : List Segment :=
      [⟨[0xA5, 0x5A, 1, 2, 0xA5, 0x5A, 122, 20, 132, 216], [0xA5]⟩,
        ⟨[0xA5, 0x5A, 2, 0, 211, 32, 168, 41], [0]⟩]
    f.format.Quiet gap ∧ (∀ segment ∈ segments, segment.IsOrderly f.format) ∧
      f.reports .fresh (gap ++ segments.flatMap Segment.bytes) =
        List.replicate gap.length none ++ segments.flatMap Segment.expected ∧
      (f.pushAll .fresh (gap ++ segments.flatMap Segment.bytes)).2.toList =
        segments.map fun segment => ⟨.valid, segment.frame⟩ := by
  intro f gap segments
  have hgap : f.format.Quiet gap := by decide
  have hfirst : f.format.encode 1 [0xA5, 0x5A] =
      .ok [0xA5, 0x5A, 1, 2, 0xA5, 0x5A, 122, 20, 132, 216] :=
    FrameFormat.encode_eq_ok_iff.mpr (by decide +kernel)
  have hsecond : f.format.encode 2 [] = .ok [0xA5, 0x5A, 2, 0, 211, 32, 168, 41] :=
    FrameFormat.encode_eq_ok_iff.mpr (by decide +kernel)
  have hsegments : ∀ segment ∈ segments, segment.IsOrderly f.format :=
    List.forall_mem_cons.mpr ⟨⟨⟨1, _, hfirst⟩, by decide⟩,
      List.forall_mem_cons.mpr ⟨⟨⟨2, _, hsecond⟩, by decide⟩, List.forall_mem_nil _⟩⟩
  exact ⟨hgap, hsegments, f.reports_encodedStream hgap hsegments⟩

end FrameFinder

end WireCodec
