import WireCodec.Proofs.Frame.Delivery

/-!
# Frames that are altered on the way

An encoded frame may be altered anywhere but in its sync bytes and in its length field, so that it
is still found as one frame (`WireCodec.FrameFormat.KeepsFraming`). Then the finder reports it on
its last byte, and which alterations its verdict notices is a matter of the checksum
(`WireCodec.FrameFinder.reports_altered`).
-/

namespace WireCodec

namespace FrameFormat

variable {f : FrameFormat} {frame altered : List UInt8}

/-- **An altered frame is still framed like the old one**: it is as long, and has the same sync
bytes and the same length field. -/
structure KeepsFraming (f : FrameFormat) (frame altered : List UInt8) : Prop where
  /-- No byte is lost or added. -/
  length : altered.length = frame.length
  /-- The sync bytes are the same. -/
  sync : ∀ i, i < 2 → altered[i]? = frame[i]?
  /-- The length field, behind the type of the packet, is the same. -/
  lengthField : ∀ i, 3 ≤ i → i < f.headerLength → altered[i]? = frame[i]?

/-- An altered frame starts with the sync bytes. -/
theorem KeepsFraming.exists_eq_sync (h : f.KeepsFraming frame altered)
    (hsync : ∃ rest, frame = f.sync0 :: f.sync1 :: rest) :
    ∃ rest, altered = f.sync0 :: f.sync1 :: rest := by
  obtain ⟨rest, rfl⟩ := hsync
  have hlength := h.length
  rw [List.length_cons, List.length_cons] at hlength
  obtain ⟨a, b, rest', rfl⟩ : ∃ a b rest', altered = a :: b :: rest' := by
    rcases altered with _ | ⟨a, _ | ⟨b, rest'⟩⟩
    · simp at hlength
    · simp at hlength
    · exact ⟨a, b, rest', rfl⟩
  obtain rfl : a = f.sync0 := Option.some.inj (h.sync 0 (by decide))
  obtain rfl : b = f.sync1 := Option.some.inj (h.sync 1 (by decide))
  exact ⟨rest', rfl⟩

/-- An altered frame declares the same length. -/
theorem KeepsFraming.bodyLength?_eq (h : f.KeepsFraming frame altered) :
    f.bodyLength? altered = f.bodyLength? frame := by
  have hfield : (altered.drop 3).take f.lengthWidth.bytes =
      (frame.drop 3).take f.lengthWidth.bytes := by
    refine List.ext_getElem? fun i => ?_
    rw [List.getElem?_take, List.getElem?_take]
    by_cases hi : i < f.lengthWidth.bytes
    · have hfield := h.lengthField (3 + i) (Nat.le_add_right 3 i) (by rw [headerLength]; omega)
      rw [if_pos hi, if_pos hi, List.getElem?_drop, List.getElem?_drop, hfield]
    · rw [if_neg hi, if_neg hi]
  rw [bodyLength?, bodyLength?, h.length, hfield]

end FrameFormat

namespace FrameFinder

variable (f : FrameFinder) {packetType : UInt8} {body frame altered : List UInt8}

theorem judge_eq_valid_iff (bytes : List UInt8) :
    f.judge bytes = .valid ↔ f.format.checksum.verify bytes = true := by
  unfold judge
  split <;> simp_all

/-- **An altered frame is reported on its last byte, and what its checksum notices is invalid.**
With a cyclic redundancy check that is every alteration within four bytes in a row; with a Fletcher
checksum it is every single byte, but for one before the checksum field that was `0` and is `255` or
the other way round: then the frame is reported as valid. -/
theorem reports_altered (hframe : f.format.encode packetType body = .ok frame)
    (hframing : f.format.KeepsFraming frame altered) (hne : altered ≠ frame) :
    f.reports .fresh altered =
        List.replicate (altered.length - 1) none ++ [some ⟨f.judge altered, altered⟩] ∧
      (f.format.checksum = .crc32 → Crc32.IsBurst frame altered → f.judge altered = .invalid) ∧
      (f.format.checksum = .fletcher16 → ∀ before behind x y,
        frame = before ++ x :: behind → altered = before ++ y :: behind →
          (f.judge altered = .valid ↔
            f.format.checksum.fieldLength ≤ behind.length ∧
              (x = 0 ∧ y = 255 ∨ x = 255 ∧ y = 0))) := by
  have hverify := FrameFormat.verify_of_encode hframe
  have hfield : f.format.checksum.fieldLength ≤ frame.length := by
    rw [FrameFormat.length_of_encode hframe, FrameFormat.overhead]
    omega
  refine ⟨?_, fun hcrc hburst => ?_, fun hfletcher before behind x y hold hnew => ?_⟩
  · have hquiet : f.format.Quiet [] := List.isChain_singleton _
    obtain ⟨n, hn, hlength⟩ := f.isWhole_of_encode hframe
    have hwhole : f.IsWhole altered :=
      ⟨n, hframing.bodyLength?_eq.trans hn, hframing.length.trans hlength⟩
    exact (f.reports_whole (f.between_fresh hquiet)
      (hframing.exists_eq_sync (FrameFormat.exists_eq_sync_of_encode hframe)) hwhole
      (hframing.length.trans_le (FrameFormat.length_le_of_encode hframe))).1
  · rw [hcrc] at hverify hfield
    rw [judge, hcrc, Checksum.verify_eq_false_of_isBurst hverify hfield hframing.length hne hburst]
    rfl
  · subst hold hnew
    rw [hfletcher] at hverify hfield ⊢
    have hxy : x ≠ y := fun heq => hne (by rw [heq])
    rw [judge_eq_valid_iff, hfletcher]
    exact Checksum.verify_fletcher16_iff_of_byte hverify hfield hxy

/-- A burst of four bytes across the border of body and checksum is noticed, and a `0` that became
`255` in the type of the packet is not, with a Fletcher checksum. -/
theorem reports_altered_across_border :
    let f : FrameFinder := ⟨FrameFormat.ofSync 0xA5 0x5A, by decide⟩
    let frame : List UInt8 := [0xA5, 0x5A, 1, 2, 0xA5, 0x5A, 122, 20, 132, 216]
    let altered : List UInt8 := [0xA5, 0x5A, 1, 2, 0x5A, 0xA5, 122, 21, 132, 216]
    let f' : FrameFinder :=
      ⟨(FrameFormat.ofSync 0xA5 0x5A).withChecksum .fletcher16, by decide⟩
    let frame' : List UInt8 := [0xA5, 0x5A, 0, 1, 7, 174, 8]
    let altered' : List UInt8 := [0xA5, 0x5A, 255, 1, 7, 174, 8]
    (f.format.encode 1 [0xA5, 0x5A] = .ok frame ∧ f.format.KeepsFraming frame altered ∧
        altered ≠ frame ∧ Crc32.IsBurst frame altered ∧
        f.reports .fresh altered = List.replicate 9 none ++ [some ⟨.invalid, altered⟩]) ∧
      f'.format.encode 0 [7] = .ok frame' ∧ f'.format.KeepsFraming frame' altered' ∧
        altered' ≠ frame' ∧
        f'.reports .fresh altered' = List.replicate 6 none ++ [some ⟨.valid, altered'⟩] := by
  intro f frame altered f' frame' altered'
  have hframe : f.format.encode 1 [0xA5, 0x5A] = .ok frame :=
    FrameFormat.encode_eq_ok_iff.mpr (by decide +kernel)
  have hframing : f.format.KeepsFraming frame altered := ⟨rfl, by decide, by decide⟩
  have hne : altered ≠ frame := by decide
  have hburst : Crc32.IsBurst frame altered := by
    refine ⟨4, fun i hi => ?_⟩
    have hlt : i < 10 := by
      rcases Nat.lt_or_ge i 10 with hlt | hge
      · exact hlt
      · exact absurd (List.getElem?_eq_none hge) (fun h => hi (h.trans
          (List.getElem?_eq_none hge).symm))
    have hdiffers : ∀ i < 10, frame[i]? ≠ altered[i]? → 4 ≤ i ∧ i < 4 + 4 := by decide
    exact hdiffers i hlt hi
  have hframe' : f'.format.encode 0 [7] = .ok frame' :=
    FrameFormat.encode_eq_ok_iff.mpr (by decide +kernel)
  have hframing' : f'.format.KeepsFraming frame' altered' := ⟨rfl, by decide, by decide⟩
  have hne' : altered' ≠ frame' := by decide
  obtain ⟨hreports, hcrc, -⟩ := f.reports_altered hframe hframing hne
  obtain ⟨hreports', -, hfletcher⟩ := f'.reports_altered hframe' hframing' hne'
  have hvalid := (hfletcher rfl [0xA5, 0x5A] [1, 7, 174, 8] 0 255 rfl rfl).mpr (by decide)
  rw [hcrc rfl hburst] at hreports
  rw [hvalid] at hreports'
  exact ⟨⟨hframe, hframing, hne, hburst, hreports⟩, hframe', hframing', hne', hreports'⟩

end FrameFinder

end WireCodec
