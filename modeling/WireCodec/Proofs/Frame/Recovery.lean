import WireCodec.Proofs.Frame.Delivery
import WireCodec.Proofs.Frame.Receiver

/-!
# Getting back in step

A stream may break off in the middle of a frame, or bring a header that declares more than ever
comes. Then the finder takes what follows for the rest of a frame, but not for long: behind as many
bytes as the greatest size, none of them a first sync byte, it waits for a first sync byte again,
and the next frame is reported as if nothing had been before it
(`WireCodec.FrameFinder.reports_behind_padding`).

The bytes in between need not be harmless otherwise. The second sync byte may be among them, and if
the first one was the last byte before them, a frame is begun with bytes that belong to none. What
decreases with every byte is `WireCodec.FrameFinder.lag`.
-/

namespace WireCodec

namespace FrameFinder

variable (f : FrameFinder) {s : StreamState}

/-- **How many bytes, none of them a first sync byte, it takes at most** until the finder waits for
a first sync byte. -/
def lag : StreamState → Nat
  | .hunting => 0
  | .completed _ => 0
  | .anchored _ => f.format.maxSize - 1
  | .collecting bytes => max 1 (f.format.maxSize - bytes.size)

theorem lag_le_maxSize (s : StreamState) : f.lag s ≤ f.format.maxSize := by
  have := f.two_lt_maxSize
  cases s <;> simp only [lag] <;> omega

/-- Without a lag the finder waits for a first sync byte. -/
theorem phase_of_lag_eq_zero (h : f.lag s = 0) : s.phase = .seekSync0 := by
  have := f.two_lt_maxSize
  cases s with
  | hunting => rfl
  | completed frame => rfl
  | anchored sync0 => simp only [lag] at h; omega
  | collecting bytes => simp only [lag] at h; omega

/-- **Every byte but a first sync byte makes up for one byte of the lag.** -/
theorem lag_push {b : UInt8} (hb : b ≠ f.format.sync0) : f.lag (f.push s b).1 ≤ f.lag s - 1 := by
  have hmax := f.two_lt_maxSize
  have hstep := f.steps_push s b
  generalize f.push s b = behind at hstep ⊢
  cases hstep with
  | complete => exact Nat.zero_le _
  | giveUp => exact Nat.zero_le _
  | goOn partly room =>
    simp only [lag, Array.size_push]
    omega
  | second sync0 =>
    -- A frame that is begun by mistake has two bytes already.
    change max 1 (f.format.maxSize - 2) ≤ f.format.maxSize - 1 - 1
    omega
  | anchor => exact absurd rfl hb
  | pass => exact Nat.zero_le _

/-- **As many bytes as the greatest size are enough**, whatever the state before them. -/
theorem lag_run {padding : List UInt8} (hpadding : f.format.sync0 ∉ padding) :
    f.lag (f.run s padding) ≤ f.lag s - padding.length := by
  induction padding generalizing s with
  | nil => exact Nat.le_refl _
  | cons b padding ih =>
    have hb : b ≠ f.format.sync0 := (List.ne_of_not_mem_cons hpadding).symm
    have hstep : f.lag (f.push s b).1 ≤ f.lag s - 1 := f.lag_push hb
    have hrest : f.lag (f.run (f.push s b).1 padding) ≤ f.lag (f.push s b).1 - padding.length :=
      ih (List.not_mem_of_not_mem_cons hpadding)
    rw [run_cons, List.length_cons]
    omega

/-- A finder that waits for a first sync byte is between two frames. -/
theorem between_of_phase (h : s.phase = .seekSync0) : f.Between s [] := by
  have hquiet : f.format.Quiet [] := List.isChain_singleton _
  cases s with
  | hunting => exact f.between_fresh hquiet
  | completed frame => exact f.between_completed hquiet
  | anchored sync0 => cases h
  | collecting bytes => cases h

/-- **Behind as many bytes as the greatest size, none of them a first sync byte, the finder is back
in step**, whatever its state was before them: it waits for a first sync byte, and an encoded frame
is reported as valid on its last byte, while no byte before reports anything. -/
theorem reports_behind_padding (s : StreamState) {padding body frame : List UInt8}
    {packetType : UInt8} (hlong : f.format.maxSize ≤ padding.length)
    (hpadding : f.format.sync0 ∉ padding)
    (hframe : f.format.encode packetType body = .ok frame) :
    (f.run s padding).phase = .seekSync0 ∧
      f.reports s (padding ++ frame) = f.reports s padding ++
        (List.replicate (frame.length - 1) none ++ [some ⟨.valid, frame⟩]) ∧
      f.run s (padding ++ frame) = .completed frame.toArray := by
  have hphase : (f.run s padding).phase = .seekSync0 := by
    have hrun : f.lag (f.run s padding) ≤ f.lag s - padding.length := f.lag_run hpadding
    have hstart := f.lag_le_maxSize s
    exact f.phase_of_lag_eq_zero (by omega)
  obtain ⟨hreports, hrun⟩ := f.reports_frame (f.between_of_phase hphase) hframe
  rw [reports_append, run_append, hreports]
  exact ⟨hphase, rfl, hrun⟩

/-- A first sync byte is the last byte before the padding, whose first bytes are a second one and a
header that declares more than the greatest size. -/
theorem reports_behind_padding_of_oversize :
    let f : FrameFinder := ⟨(FrameFormat.ofSync 0xA5 0x5A).withMaxSize 16, by decide⟩
    let s := f.run .fresh [0, 0xA5]
    let padding : List UInt8 := [0x5A, 0, 200, 0, 0, 0, 0, 0, 0, 0, 0, 0, 0, 0, 0, 0]
    let frame : List UInt8 := [0xA5, 0x5A, 2, 0, 211, 32, 168, 41]
    f.format.maxSize ≤ padding.length ∧ f.format.sync0 ∉ padding ∧
      f.format.encode 2 [] = .ok frame ∧ s.phase = .seekSync1 ∧
      (f.run s (padding.take 8)).phase = .accumulating ∧ (f.run s padding).phase = .seekSync0 ∧
      f.reports s (padding ++ frame) =
        List.replicate 23 none ++ [some ⟨.valid, frame⟩] := by
  intro f s padding frame
  have hlong : f.format.maxSize ≤ padding.length := by decide
  have hpadding : f.format.sync0 ∉ padding := by decide
  have hframe : f.format.encode 2 [] = .ok frame :=
    FrameFormat.encode_eq_ok_iff.mpr (by decide +kernel)
  obtain ⟨hphase, hreports, -⟩ := f.reports_behind_padding s hlong hpadding hframe
  have hnothing : f.reports s padding = List.replicate 16 none := by decide +kernel
  rw [hnothing] at hreports
  exact ⟨hlong, hpadding, hframe, by decide +kernel, by decide +kernel, hphase, hreports⟩

end FrameFinder

end WireCodec
