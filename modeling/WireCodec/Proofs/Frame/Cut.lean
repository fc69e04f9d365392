import WireCodec.Proofs.Frame.Reports

/-!
# Cutting a whole stream into frames

`WireCodec.FrameFinder.cut` reads a stream that is there as a whole: at the first place where the
two sync bytes stand next to each other it looks ahead to the declared length, takes the frame out
of the stream, and goes on behind it. It is what a finder is meant to do, without a state.

The finder does the same one byte at a time (`WireCodec.FrameFinder.pushAll_fresh_eq_cut`). In any
state, the stream still to be cut is the pending bytes of the state followed by the bytes to come
(`WireCodec.FrameFinder.cut_pending_cons`), so a byte that completes no frame moves from the one
part to the other or, being part of no frame, is dropped from both.
-/

namespace WireCodec

namespace FrameFinder

variable (f : FrameFinder)

/-- **The frames of a whole stream.** A frame starts at the first place where the two sync bytes
stand next to each other. If its header is not complete there are no more frames. A frame of at
most the greatest size is taken out if the stream is long enough, and the next one is looked for
behind it. Of a frame that would be larger, as many bytes as the greatest size are passed over. -/
def cut (f : FrameFinder) : List UInt8 → List Detection
  | [] => []
  | b :: rest =>
    if b = f.format.sync0 ∧ rest.head? = some f.format.sync1 then
      match f.format.bodyLength? (b :: rest) with
      | none => []
      | some n =>
        let size := n + f.format.overhead
        let stream := b :: rest
        if size ≤ f.format.maxSize then
          if size ≤ stream.length then
            ⟨f.judge (stream.take size), stream.take size⟩ :: cut f (stream.drop size)
          else []
        else if f.format.maxSize ≤ stream.length then cut f (stream.drop f.format.maxSize)
        else []
    else cut f rest
termination_by stream => stream.length
decreasing_by
  · have := f.format.headerLength_lt_overhead
    simp only [List.length_drop, List.length_cons]
    omega
  · have : f.format.overhead < f.format.maxSize := f.hasRoom
    simp only [List.length_drop, List.length_cons]
    omega
  · simp

@[simp] theorem cut_nil : f.cut [] = [] := by
  rw [cut]

/-! ### One place of the stream -/

/-- A place where the sync bytes do not stand is passed over. -/
theorem cut_cons_of_not_sync {b : UInt8} {rest : List UInt8}
    (h : ¬(b = f.format.sync0 ∧ rest.head? = some f.format.sync1)) :
    f.cut (b :: rest) = f.cut rest := by
  rw [cut, if_neg h]

/-- A first sync byte at the end of the stream starts no frame. -/
theorem cut_singleton (b : UInt8) : f.cut [b] = [] := by
  rw [cut_cons_of_not_sync f (by simp), cut_nil]

/-- A frame without its header ends the search. -/
theorem cut_of_short {stream rest : List UInt8}
    (hs : stream = f.format.sync0 :: f.format.sync1 :: rest)
    (hn : f.format.bodyLength? stream = none) : f.cut stream = [] := by
  subst hs
  rw [cut, if_pos ⟨rfl, rfl⟩, hn]

/-- A whole frame is taken out of the stream. -/
theorem cut_append_of_isWhole {frame rest : List UInt8}
    (hs : ∃ tail, frame = f.format.sync0 :: f.format.sync1 :: tail) (hw : f.IsWhole frame)
    (hmax : frame.length ≤ f.format.maxSize) :
    f.cut (frame ++ rest) = ⟨f.judge frame, frame⟩ :: f.cut rest := by
  obtain ⟨tail, rfl⟩ := hs
  obtain ⟨n, hn, hsize⟩ := hw
  have hn' := f.format.bodyLength?_append (f.format.headerLength_le_of_bodyLength? hn) rest
  rw [hn] at hn'
  rw [List.cons_append, List.cons_append] at hn' ⊢
  rw [cut, if_pos ⟨rfl, rfl⟩, hn']
  simp only [← hsize, if_pos hmax, ← List.cons_append, List.take_left, List.drop_left]
  rw [if_pos (by rw [List.length_append]; omega)]

/-- A frame that the stream does not hold to its end is the last one. -/
theorem cut_of_partial {stream rest : List UInt8} {n : Nat}
    (hs : stream = f.format.sync0 :: f.format.sync1 :: rest)
    (hn : f.format.bodyLength? stream = some n) (hlen : stream.length < n + f.format.overhead)
    (hmax : stream.length < f.format.maxSize) : f.cut stream = [] := by
  subst hs
  rw [cut, if_pos ⟨rfl, rfl⟩, hn]
  simp only [if_neg (Nat.not_le.mpr hlen), if_neg (Nat.not_le.mpr hmax), ite_self]

/-- Of a frame that would be too large, the greatest size is passed over. -/
theorem cut_append_of_full {start rest : List UInt8}
    (hs : ∃ tail, start = f.format.sync0 :: f.format.sync1 :: tail)
    (hlen : ∀ n, f.format.bodyLength? start = some n → start.length < n + f.format.overhead)
    (hmax : start.length = f.format.maxSize) : f.cut (start ++ rest) = f.cut rest := by
  obtain ⟨tail, rfl⟩ := hs
  have hroom : f.format.overhead < f.format.maxSize := f.hasRoom
  have hle := f.format.headerLength_lt_overhead
  obtain ⟨n, hn⟩ : ∃ n, f.format.bodyLength? (f.format.sync0 :: f.format.sync1 :: tail) = some n :=
    Option.ne_none_iff_exists'.mp fun h => by
      have := f.format.bodyLength?_eq_none_iff.mp h
      omega
  have hn' := f.format.bodyLength?_append (f.format.headerLength_le_of_bodyLength? hn) rest
  have hbig := hlen n hn
  rw [hn] at hn'
  rw [List.cons_append, List.cons_append] at hn' ⊢
  rw [cut, if_pos ⟨rfl, rfl⟩, hn']
  simp only [if_neg (show ¬n + f.format.overhead ≤ f.format.maxSize by omega), ← List.cons_append]
  rw [if_pos (by rw [List.length_append]; omega), ← hmax, List.drop_left]

/-! ### One byte of the finder -/

/-- A byte that belongs to no frame so far is a first sync byte or is passed over. -/
theorem cut_anchor (b : UInt8) (rest : List UInt8) :
    f.cut ((f.anchor b).pending ++ rest) = f.cut (b :: rest) := by
  unfold anchor
  by_cases hb : b = f.format.sync0
  · rw [if_pos hb]
    rfl
  · rw [if_neg hb, cut_cons_of_not_sync f fun h => hb h.1]
    rfl

/-- Collecting one more byte is what cutting the stream does with it. -/
theorem cut_collect {bytes : Array UInt8} {b : UInt8} (h : f.Tracks (.collecting bytes))
    (rest : List UInt8) :
    f.cut (bytes.toList ++ b :: rest) =
      (f.report (.collecting bytes) b).toList ++
        f.cut ((f.push (.collecting bytes) b).1.pending ++ rest) := by
  obtain ⟨⟨tail, htail⟩, hmax, hlen⟩ := h
  have hcons : bytes.toList ++ b :: rest = (bytes.push b).toList ++ rest := by simp
  have hsync : ∃ tail, (bytes.push b).toList = f.format.sync0 :: f.format.sync1 :: tail :=
    ⟨tail ++ [b], by simp [htail]⟩
  have hlength : (bytes.push b).toList.length = bytes.size + 1 := by simp
  rw [hcons, report, push]
  by_cases hw : f.IsWhole (bytes.push b).toList
  · rw [collect_of_isWhole f hw, cut_append_of_isWhole f hsync hw (by omega)]
    rfl
  by_cases hm : f.format.maxSize ≤ (bytes.push b).size
  · rw [Array.size_push] at hm
    rw [collect_of_full f hw (by rw [Array.size_push]; exact hm)]
    refine cut_append_of_full f hsync (fun n hn => ?_) (by omega)
    -- The header is complete by now, so the frame was too short before this byte as well.
    have hhead : f.format.headerLength ≤ bytes.toList.length := by
      have hroom : f.format.overhead < f.format.maxSize := f.hasRoom
      have := f.format.headerLength_lt_overhead
      rw [Array.length_toList]
      omega
    have hne : (bytes.push b).toList.length ≠ n + f.format.overhead := fun he => hw ⟨n, hn, he⟩
    rw [Array.toList_push, f.format.bodyLength?_append hhead] at hn
    have := hlen n hn
    omega
  · rw [collect_of_partial f hw (by omega)]
    rfl

/-- **One byte of the finder is one byte of the stream**: in a state that keeps the invariant,
cutting the pending bytes and the rest of the stream gives what the next byte reports, and then
what cutting gives in the state behind it. -/
theorem cut_pending_cons {s : StreamState} (h : f.Tracks s) (b : UInt8) (rest : List UInt8) :
    f.cut (s.pending ++ b :: rest) =
      (f.report s b).toList ++ f.cut ((f.push s b).1.pending ++ rest) := by
  cases s with
  | hunting => exact (f.cut_anchor b rest).symm
  | completed frame => exact (f.cut_anchor b rest).symm
  | anchored sync0 =>
    rw [report, push]
    split
    case isTrue => rfl
    case isFalse hb =>
      refine (f.cut_cons_of_not_sync fun hc => hb ?_).trans (f.cut_anchor b rest).symm
      exact Option.some.inj hc.2
  | collecting bytes => exact f.cut_collect h rest

/-- At the end of the stream, the pending bytes are no frame. -/
theorem cut_pending {s : StreamState} (h : f.Tracks s) : f.cut s.pending = [] := by
  cases s with
  | hunting => exact f.cut_nil
  | completed frame => exact f.cut_nil
  | anchored sync0 => exact f.cut_singleton sync0
  | collecting bytes =>
    obtain ⟨⟨tail, htail⟩, hmax, hlen⟩ := h
    rcases hn : f.format.bodyLength? bytes.toList with _ | n
    · exact f.cut_of_short htail hn
    · exact f.cut_of_partial htail hn (hlen n hn) hmax

/-! ### Whole streams -/

/-- In any state that keeps the invariant, the frames that the rest of a stream completes are
those of the pending bytes and that rest. -/
theorem filterMap_reports_eq_cut {s : StreamState} (h : f.Tracks s) (bytes : List UInt8) :
    (f.reports s bytes).filterMap id = f.cut (s.pending ++ bytes) := by
  induction bytes generalizing s with
  | nil => rw [List.append_nil, cut_pending f h, reports_nil, List.filterMap_nil]
  | cons b bytes ih =>
    rw [cut_pending_cons f h, ← ih (f.tracks_push h b), reports_cons]
    cases f.report s b <;> simp

/-- **Taking in a stream one byte at a time finds the frames that cutting the whole stream
gives**, in the same order and with the same verdicts. -/
theorem pushAll_fresh_eq_cut (s : List UInt8) : (f.pushAll .fresh s).2.toList = f.cut s := by
  rw [pushAll_eq]
  exact f.filterMap_reports_eq_cut f.tracks_fresh s

end FrameFinder

end WireCodec
