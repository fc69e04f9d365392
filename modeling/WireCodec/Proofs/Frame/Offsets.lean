import Mathlib.Data.List.Induction
import WireCodec.Frame.Scan
import WireCodec.Proofs.Frame.Reports

/-!
# Frames and their places in a scanned stream

A scan reads its stream in pieces, and what it finds does not depend on where they are cut
(`WireCodec.FrameFinder.scan_fresh`): its frames are those that taking in the whole stream at once
finds, each at the place where it stands in the stream, and it ends in the state behind the bytes
that were read, however the stream ends.

The place of a frame is the count of bytes taken in less the length of the frame. That it is one,
and the right one, comes from what the buffer of a state is: the last bytes of the stream
(`WireCodec.FrameFinder.buffer_run_isSuffix`).
-/

namespace WireCodec

/-! ### Attempts to read -/

namespace ReadEvent

/-- The bytes that an attempt to read has brought. -/
def bytes : ReadEvent → List UInt8
  | piece bytes => bytes
  | interrupted => []
  | failure _ => []

/-- **The stream goes on behind this attempt**: it has brought a byte or was interrupted. -/
def GoesOn : ReadEvent → Prop
  | piece bytes => bytes ≠ []
  | interrupted => True
  | failure _ => False

instance (event : ReadEvent) : Decidable event.GoesOn :=
  match event with
  | piece bytes => inferInstanceAs (Decidable (bytes ≠ []))
  | interrupted => inferInstanceAs (Decidable True)
  | failure _ => inferInstanceAs (Decidable False)

/-- **How a stream ends**, with the message if it fails. Attempts behind the end are not made. -/
inductive Ends : List ReadEvent → Option String → Prop
  /-- There is nothing more to read. -/
  | nothing : Ends [] none
  /-- A read of no bytes is the end of the stream. -/
  | empty (events : List ReadEvent) : Ends (piece [] :: events) none
  /-- A read has failed. -/
  | failure (message : String) (events : List ReadEvent) :
      Ends (ReadEvent.failure message :: events) (some message)

end ReadEvent

/-! ### Places -/

/-- The frames of a history, each behind the number of bytes up to its last one. -/
def frameEnds (reports : List (Option Detection)) : List (Nat × Detection) :=
  (reports.zipIdx 1).filterMap fun entry => entry.1.map fun d => (entry.2, d)

@[simp] theorem frameEnds_nil : frameEnds [] = [] := rfl

theorem frameEnds_concat (reports : List (Option Detection)) (report : Option Detection) :
    frameEnds (reports ++ [report]) =
      frameEnds reports ++ (report.map fun d => (reports.length + 1, d)).toList := by
  rw [frameEnds, List.zipIdx_append, List.filterMap_append, frameEnds, Nat.add_comm 1]
  cases report <;> rfl

/-- The frames alone are those of the history. -/
theorem map_snd_frameEnds (reports : List (Option Detection)) :
    (frameEnds reports).map Prod.snd = reports.filterMap id := by
  induction reports using List.reverseRecOn with
  | nil => rfl
  | append_singleton reports report ih =>
    rw [frameEnds_concat, List.map_append, ih, List.filterMap_append]
    cases report <;> rfl

/-- **A frame stands at a place of a stream**: its bytes do, behind as many others as the place
says. -/
def StandsAt (stream : List UInt8) (place : Nat × Detection) : Prop :=
  ∃ before behind, stream = before ++ place.2.frame ++ behind ∧ before.length = place.1

theorem StandsAt.append {stream : List UInt8} {place : Nat × Detection}
    (h : StandsAt stream place) (more : List UInt8) : StandsAt (stream ++ more) place := by
  obtain ⟨before, behind, rfl, hlength⟩ := h
  exact ⟨before, behind ++ more, by rw [List.append_assoc], hlength⟩

namespace FrameFinder

variable (f : FrameFinder)

/-! ### The buffer -/

/-- A byte is put behind the buffer, or behind a part of it that is still of use. -/
theorem buffer_push_isSuffix (s : StreamState) (b : UInt8) :
    (f.push s b).1.buffer <:+ s.buffer ++ [b] := by
  have hstep := f.steps_push s b
  generalize f.push s b = behind at hstep ⊢
  cases hstep with
  | @complete bytes b => exact (Array.toList_push : (bytes.push b).toList = _) ▸ List.suffix_refl _
  | giveUp => exact List.nil_suffix
  | @goOn bytes b => exact (Array.toList_push : (bytes.push b).toList = _) ▸ List.suffix_refl _
  | second sync0 => exact List.suffix_refl [sync0, f.format.sync1]
  | anchor => exact List.suffix_append s.buffer [f.format.sync0]
  | pass => exact List.nil_suffix

/-- **The buffer holds the last bytes of the stream.** -/
theorem buffer_run_isSuffix (stream : List UInt8) : (f.run .fresh stream).buffer <:+ stream := by
  induction stream using List.reverseRecOn with
  | nil => exact List.nil_suffix
  | append_singleton stream b ih =>
    rw [run_append]
    refine (f.buffer_push_isSuffix _ b).trans ?_
    obtain ⟨before, hbefore⟩ := ih
    exact ⟨before, by rw [← List.append_assoc, hbefore]⟩

/-! ### One byte of a scan -/

/-- **A scan has taken in a stream**: it is in the state behind the stream, and has found the frames
of its history where they stand. -/
structure HasScanned (p : ScanProgress) (stream : List UInt8) : Prop where
  /-- The state is the one behind the stream. -/
  state : p.state = f.run .fresh stream
  /-- All bytes are counted. -/
  consumed : p.consumed = stream.length
  /-- The frames are those of the history, and each ends with the byte that has completed it. -/
  ends : (p.found.toList.map fun place => (place.1 + place.2.frame.length, place.2)) =
    frameEnds (f.reports .fresh stream)
  /-- Every frame stands at its place. -/
  stands : ∀ place ∈ p.found.toList, StandsAt stream place

theorem hasScanned_fresh : f.HasScanned { state := .fresh } [] :=
  ⟨rfl, rfl, rfl, fun _ hplace => absurd hplace List.not_mem_nil⟩

theorem scanByte_eq (p : ScanProgress) (b : UInt8) :
    f.scanByte p b = ⟨(f.push p.state b).1, p.consumed + 1, p.found ++
      ((f.report p.state b).map fun d => (p.consumed + 1 - d.frame.length, d)).toArray⟩ := by
  obtain ⟨s, consumed, found⟩ := p
  obtain ⟨⟨s', verdict⟩, hpush⟩ : ∃ q, f.push s b = q := ⟨_, rfl⟩
  cases verdict <;> simp [scanByte, report, hpush]

/-- A frame that a byte completes is what the buffer holds behind it. -/
theorem buffer_of_report {s : StreamState} {b : UInt8} {d : Detection}
    (h : f.report s b = some d) : d.frame = (f.push s b).1.buffer := by
  obtain ⟨verdict, -, rfl⟩ := Option.map_eq_some_iff.mp h
  rfl

/-- **One byte of a scan.** -/
theorem hasScanned_scanByte {p : ScanProgress} {stream : List UInt8} (h : f.HasScanned p stream)
    (b : UInt8) : f.HasScanned (f.scanByte p b) (stream ++ [b]) := by
  have hrun : f.run .fresh (stream ++ [b]) = (f.push p.state b).1 := by
    rw [run_append, ← h.state]
    rfl
  have hreports : f.reports .fresh (stream ++ [b]) =
      f.reports .fresh stream ++ [f.report p.state b] := by
    rw [reports_append, ← h.state]
    rfl
  have hsuffix := f.buffer_run_isSuffix (stream ++ [b])
  rw [hrun] at hsuffix
  rw [scanByte_eq]
  cases hreport : f.report p.state b with
  | none =>
    refine ⟨hrun.symm, by simp [h.consumed], ?_, fun place hplace => ?_⟩
    · rw [hreports, hreport, frameEnds_concat, ← h.ends]
      simp
    · exact (h.stands place (by simpa using hplace)).append [b]
  | some d =>
    -- The frame is the end of the stream, so its length can be taken away from that of the stream.
    rw [← f.buffer_of_report hreport] at hsuffix
    obtain ⟨before, hbefore⟩ := hsuffix
    have hlength : before.length + d.frame.length = p.consumed + 1 := by
      rw [h.consumed, ← List.length_append, hbefore, List.length_append, List.length_singleton]
    have hplace : p.consumed + 1 - d.frame.length = before.length := by omega
    refine ⟨hrun.symm, by simp [h.consumed], ?_, fun place hmem => ?_⟩
    · rw [hreports, hreport, frameEnds_concat, ← h.ends, f.length_reports, ← h.consumed]
      simp [hplace, hlength]
    · rw [Array.toList_append] at hmem
      rcases List.mem_append.mp hmem with hold | hnew
      · exact (h.stands place hold).append [b]
      · obtain rfl := List.mem_singleton.mp hnew
        exact ⟨before, [], by rw [List.append_nil, hbefore], hplace.symm⟩

/-! ### Whole scans -/

theorem hasScanned_scanPiece (stream : List UInt8) :
    f.HasScanned (f.scanPiece { state := .fresh } stream) stream := by
  induction stream using List.reverseRecOn with
  | nil => exact f.hasScanned_fresh
  | append_singleton stream b ih =>
    rw [scanPiece, List.foldl_append]
    exact f.hasScanned_scanByte ih b

/-- **A scan is a scan of one piece**, whatever the pieces it reads. -/
theorem scanFrom_eq_scanPiece {events ending : List ReadEvent} {failure : Option String}
    (p : ScanProgress) (hevents : ∀ event ∈ events, event.GoesOn)
    (hending : ReadEvent.Ends ending failure) :
    f.scanFrom p (events ++ ending) =
      (f.scanPiece p (events.flatMap ReadEvent.bytes), failure) := by
  induction events generalizing p with
  | nil => cases hending <;> rfl
  | cons event events ih =>
    obtain ⟨hfirst, hothers⟩ := List.forall_mem_cons.mp hevents
    rw [List.flatMap_cons, scanPiece, List.foldl_append]
    cases event with
    | piece bytes =>
      obtain ⟨b, bytes, rfl⟩ := List.exists_cons_of_ne_nil hfirst
      exact ih _ hothers
    | interrupted => exact ih p hothers
    | failure message => exact absurd hfirst id

/-- **Scanning a stream finds what taking in the stream at once finds**, where it stands. Whatever
the pieces, with any interruptions between them and whatever the end of the stream, a scan is the
scan of the stream as one piece, and its message is that of the failure. It has taken in all bytes
that were read and ends in the state behind them; its frames are those of the stream, in order and
with their verdicts, each ends with the byte that has completed it, and each stands at its place. -/
theorem scan_fresh {events ending : List ReadEvent} {failure : Option String}
    (hevents : ∀ event ∈ events, event.GoesOn) (hending : ReadEvent.Ends ending failure) :
    let stream := events.flatMap ReadEvent.bytes
    let p := f.scanPiece { state := .fresh } stream
    f.scan .fresh (events ++ ending) = (p, failure) ∧
      p.consumed = stream.length ∧ p.state = (f.pushAll .fresh stream).1 ∧
      p.found.toList.map Prod.snd = (f.pushAll .fresh stream).2.toList ∧
      (p.found.toList.map fun place => (place.1 + place.2.frame.length, place.2)) =
        frameEnds (f.reports .fresh stream) ∧
      ∀ place ∈ p.found.toList, StandsAt stream place := by
  intro stream p
  have hscanned : f.HasScanned p stream := f.hasScanned_scanPiece stream
  refine ⟨f.scanFrom_eq_scanPiece _ hevents hending, hscanned.consumed, ?_, ?_, hscanned.ends,
    hscanned.stands⟩
  · rw [hscanned.state, pushAll_eq]
  · rw [pushAll_eq, ← map_snd_frameEnds, ← hscanned.ends, List.map_map]
    rfl

/-- A stream that fails. Its one frame is cut in the middle of the sync bytes, where the read was
interrupted too, and has one byte before it. -/
theorem scan_fresh_of_failure :
    let f : FrameFinder := ⟨FrameFormat.ofSync 0xA5 0x5A, by decide⟩
    let events : List ReadEvent :=
      [.piece [0, 0xA5], .interrupted, .piece [0x5A, 2, 0, 211, 32, 168, 41], .piece [0xA5]]
    let ending : List ReadEvent := [.failure "gone", .piece [0x5A]]
    (∀ event ∈ events, event.GoesOn) ∧ ReadEvent.Ends ending (some "gone") ∧
      ∃ p, f.scan .fresh (events ++ ending) = (p, some "gone") ∧
        p.consumed = 10 ∧ p.state = .anchored 0xA5 ∧
        p.found.toList = [(1, ⟨.valid, [0xA5, 0x5A, 2, 0, 211, 32, 168, 41]⟩)] := by
  intro f events ending
  have hevents : ∀ event ∈ events, event.GoesOn := by decide
  have hending : ReadEvent.Ends ending (some "gone") := .failure "gone" _
  obtain ⟨hscan, hconsumed, -⟩ := f.scan_fresh hevents hending
  exact ⟨hevents, hending, _, hscan, hconsumed, by decide +kernel, by decide +kernel⟩

end FrameFinder

end WireCodec
