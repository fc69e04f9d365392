import Mathlib.Algebra.BigOperators.Fin
import Mathlib.Data.Nat.ModEq
import WireCodec.Checksum.Fletcher16
import WireCodec.Power

/-!
# The two sums of a Fletcher checksum

What the running sums hold is known modulo `255` (`WireCodec.Fletcher16.compute_eq`): the sum of the
bytes, and the sum of the bytes each as often as there are bytes from it on. Where the reductions
fall does not matter, because they change nothing modulo `255`; and they come often enough, because
both sums are at most `510` after each of them (`WireCodec.Fletcher16.isSmall_addPieces`) and so
below `2 ^ 16` before the next one. A last reduction leaves a number from `1` to `255`
(`WireCodec.Fletcher16.toNat_compute_eq_sums`).

So a checksum does not tell the bytes `0` and `255` apart, but any other two bytes in one place of a
byte string (`WireCodec.Fletcher16.compute_append_cons_iff`).
-/

namespace WireCodec.Fletcher16

/-! ### The sums without reductions -/

/-- The sum of the bytes. -/
def total : List UInt8 → Nat
  | [] => 0
  | b :: data => b.toNat + total data

/-- The sum of the bytes, each as often as there are bytes from it on. -/
def weighted : List UInt8 → Nat
  | [] => 0
  | b :: data => (data.length + 1) * b.toNat + weighted data

@[simp] theorem total_nil : total [] = 0 := rfl

@[simp] theorem total_cons (b : UInt8) (data : List UInt8) :
    total (b :: data) = b.toNat + total data := rfl

@[simp] theorem weighted_nil : weighted [] = 0 := rfl

@[simp] theorem weighted_cons (b : UInt8) (data : List UInt8) :
    weighted (b :: data) = (data.length + 1) * b.toNat + weighted data := rfl

theorem total_eq_sum (data : List UInt8) : total data = ∑ i : Fin data.length, data[i].toNat := by
  induction data with
  | nil => rfl
  | cons b data ih =>
    rw [total_cons, ih]
    exact (Fin.sum_univ_succ fun i : Fin (data.length + 1) => (b :: data)[i].toNat).symm

theorem weighted_eq_sum (data : List UInt8) :
    weighted data = ∑ i : Fin data.length, (data.length - i) * data[i].toNat := by
  induction data with
  | nil => rfl
  | cons b data ih =>
    have hrest : weighted data = ∑ i : Fin data.length,
        (data.length + 1 - i.succ) * (b :: data)[i.succ].toNat := by
      rw [ih]
      refine Finset.sum_congr rfl fun i _ => ?_
      rw [Fin.val_succ, Nat.add_sub_add_right]
      rfl
    rw [weighted_cons, hrest]
    exact (Fin.sum_univ_succ fun i : Fin (data.length + 1) =>
      (data.length + 1 - i) * (b :: data)[i].toNat).symm

theorem total_append (first second : List UInt8) :
    total (first ++ second) = total first + total second := by
  induction first with
  | nil => rw [List.nil_append, total_nil, Nat.zero_add]
  | cons b first ih => rw [List.cons_append, total_cons, total_cons, ih, Nat.add_assoc]

theorem weighted_append (first second : List UInt8) :
    weighted (first ++ second) =
      weighted first + second.length * total first + weighted second := by
  induction first with
  | nil => simp
  | cons b first ih =>
    rw [List.cons_append, weighted_cons, weighted_cons, total_cons, ih, List.length_append]
    simp only [Nat.add_mul, Nat.mul_add]
    omega

theorem total_le (data : List UInt8) : total data ≤ 255 * data.length := by
  induction data with
  | nil => exact Nat.le_refl 0
  | cons b data ih =>
    have hb := b.toNat_lt
    rw [total_cons, List.length_cons]
    omega

/-- The bytes added to running sums. -/
theorem foldl_add (s : Sums) (data : List UInt8) :
    data.foldl Sums.add s =
      ⟨s.first + total data, s.second + data.length * s.first + weighted data⟩ := by
  induction data generalizing s with
  | nil => simp
  | cons b data ih =>
    rw [List.foldl_cons, ih, total_cons, weighted_cons, List.length_cons]
    simp only [Sums.add, Sums.mk.injEq, Nat.add_mul, Nat.mul_add]
    omega

/-! ### The sums stay small -/

/-- **Running sums behind a reduction.** -/
structure IsSmall (s : Sums) : Prop where
  /-- The first sum is not zero. -/
  first_pos : 0 < s.first
  /-- The first sum has been reduced. -/
  first_le : s.first ≤ 510
  /-- The second sum is not zero. -/
  second_pos : 0 < s.second
  /-- The second sum has been reduced. -/
  second_le : s.second ≤ 510

theorem isSmall_seed : IsSmall seed := by
  constructor <;> decide

theorem two_mul_weighted_le (data : List UInt8) :
    2 * weighted data ≤ 255 * (data.length * (data.length + 1)) := by
  induction data with
  | nil => exact Nat.le_refl 0
  | cons b data ih =>
    have hb := b.toNat_lt
    have hbyte : (data.length + 1) * b.toNat ≤ (data.length + 1) * 255 :=
      Nat.mul_le_mul_left _ (by omega)
    rw [weighted_cons, List.length_cons]
    simp only [Nat.mul_add, Nat.add_mul] at hbyte ih ⊢
    omega

/-- **The sums stay below `2 ^ 16` within a chunk.** -/
theorem foldl_add_lt {s : Sums} (h : IsSmall s) {data : List UInt8}
    (hlength : data.length ≤ chunkSize) :
    (data.foldl Sums.add s).first < 2 ^ 16 ∧ (data.foldl Sums.add s).second < 2 ^ 16 := by
  have htotal := total_le data
  have hweighted := two_mul_weighted_le data
  have hfirst : data.length * s.first ≤ 20 * 510 := Nat.mul_le_mul hlength h.first_le
  have hsquare : data.length * (data.length + 1) ≤ 20 * 21 :=
    Nat.mul_le_mul hlength (Nat.succ_le_succ hlength)
  have hchunk : data.length ≤ 20 := hlength
  have := h.first_le
  have := h.second_le
  rw [foldl_add]
  exact ⟨by simp only; omega, by simp only; omega⟩

theorem foldHigh_pos {sum : Nat} (h : 0 < sum) : 0 < foldHigh sum := by
  unfold foldHigh
  omega

theorem foldHigh_le {sum : Nat} (h : sum < 2 ^ 16) : foldHigh sum ≤ 510 := by
  unfold foldHigh
  omega

theorem isSmall_reduce {s : Sums} (h : IsSmall s) {data : List UInt8}
    (hlength : data.length ≤ chunkSize) : IsSmall (data.foldl Sums.add s).reduce := by
  obtain ⟨hfirst, hsecond⟩ := foldl_add_lt h hlength
  have := h.first_pos
  have := h.second_pos
  rw [foldl_add] at hfirst hsecond ⊢
  exact ⟨foldHigh_pos (by simp only; omega), foldHigh_le hfirst,
    foldHigh_pos (by simp only; omega), foldHigh_le hsecond⟩

/-! ### Pieces of a byte string -/

/-- **Pieces that a byte string may be summed up in**: they make it up, and none is longer than a
chunk. -/
structure IsChunking (data : List UInt8) (pieces : List (List UInt8)) : Prop where
  /-- The pieces make up the byte string. -/
  flatten_eq : pieces.flatten = data
  /-- The pieces are not longer than a chunk. -/
  length_le : ∀ piece ∈ pieces, piece.length ≤ chunkSize

/-- **The sums behind the pieces**, which are reduced after each of them. -/
def addPieces (s : Sums) : List (List UInt8) → Sums
  | [] => s
  | piece :: pieces => addPieces (piece.foldl Sums.add s).reduce pieces

/-- **All the sums that are gone through**, those before the last reduction included. -/
def runningSums (s : Sums) : List (List UInt8) → List Sums
  | [] => [s]
  | piece :: pieces =>
    piece.scanl Sums.add s ++ runningSums (piece.foldl Sums.add s).reduce pieces

/-- The chunks of a byte string: all of them are full, except for what remains. -/
def chunks (data : List UInt8) : List (List UInt8) :=
  if data.isEmpty then [] else data.take chunkSize :: chunks (data.drop chunkSize)
termination_by data.length
decreasing_by
  cases data with
  | nil => contradiction
  | cons b data => simp only [chunkSize, List.length_drop, List.length_cons]; omega

theorem isChunking_chunks (data : List UInt8) : IsChunking data (chunks data) := by
  fun_induction chunks data with
  | case1 data hempty => exact ⟨(List.isEmpty_iff.mp hempty).symm, by simp⟩
  | case2 data hempty ih =>
    refine ⟨?_, List.forall_mem_cons.mpr ⟨List.length_take_le _ _, ih.length_le⟩⟩
    rw [List.flatten_cons, ih.flatten_eq, List.take_append_drop]

/-- **The checksum adds chunk by chunk.** -/
theorem addChunks_eq_addPieces (s : Sums) (data : List UInt8) :
    addChunks s data = addPieces s (chunks data) := by
  fun_induction addChunks s data with
  | case1 s data hempty => rw [chunks, if_pos hempty, addPieces]
  | case2 s data hempty ih => rw [chunks, if_neg hempty, addPieces, ih]

section Pieces

variable {s : Sums} {pieces : List (List UInt8)}

theorem isSmall_addPieces (h : IsSmall s) (hlength : ∀ piece ∈ pieces, piece.length ≤ chunkSize) :
    IsSmall (addPieces s pieces) := by
  induction pieces generalizing s with
  | nil => exact h
  | cons piece pieces ih =>
    obtain ⟨hpiece, hlength⟩ := List.forall_mem_cons.mp hlength
    exact ih (isSmall_reduce h hpiece) hlength

/-- **The sums stay below `2 ^ 16`** all the way, from one reduction to the next. -/
theorem lt_of_mem_runningSums (h : IsSmall s)
    (hlength : ∀ piece ∈ pieces, piece.length ≤ chunkSize) {t : Sums}
    (ht : t ∈ runningSums s pieces) : t.first < 2 ^ 16 ∧ t.second < 2 ^ 16 := by
  induction pieces generalizing s with
  | nil =>
    have hnone : ([] : List UInt8).length ≤ chunkSize := Nat.zero_le chunkSize
    obtain rfl := List.mem_singleton.mp ht
    exact foldl_add_lt h hnone
  | cons piece pieces ih =>
    obtain ⟨hpiece, hlength⟩ := List.forall_mem_cons.mp hlength
    rcases List.mem_append.mp ht with ht | ht
    · -- Within a piece, the sums are those behind a shorter one.
      obtain ⟨n, hn, rfl⟩ := List.getElem_of_mem ht
      rw [List.getElem_scanl]
      exact foldl_add_lt h ((List.length_take_le' n piece).trans hpiece)
    · exact ih (isSmall_reduce h hpiece) hlength ht

/-- **Reductions do not change the sums modulo `255`**, wherever they fall. -/
theorem addPieces_modEq (s : Sums) (pieces : List (List UInt8)) :
    (addPieces s pieces).first ≡ s.first + total pieces.flatten [MOD 255] ∧
      (addPieces s pieces).second ≡
        s.second + pieces.flatten.length * s.first + weighted pieces.flatten [MOD 255] := by
  induction pieces generalizing s with
  | nil => simp [addPieces, Nat.ModEq]
  | cons piece pieces ih =>
    obtain ⟨hfirst, hsecond⟩ := ih (piece.foldl Sums.add s).reduce
    obtain ⟨rest, hrest⟩ : ∃ rest, pieces.flatten = rest := ⟨_, rfl⟩
    rw [hrest, foldl_add] at hfirst hsecond
    rw [addPieces, foldl_add, List.flatten_cons, hrest, total_append, weighted_append,
      List.length_append]
    have hfold : foldHigh (s.first + total piece) ≡ s.first + total piece [MOD 255] :=
      foldHigh_mod _
    have hfold' : foldHigh (s.second + piece.length * s.first + weighted piece) ≡
        s.second + piece.length * s.first + weighted piece [MOD 255] := foldHigh_mod _
    refine ⟨(hfirst.trans (hfold.add_right (total rest))).trans ?_, (hsecond.trans
      ((hfold'.add (hfold.mul_left rest.length)).add_right (weighted rest))).trans ?_⟩
    · rw [Nat.add_assoc]
    · simp only [Nat.mul_add, Nat.add_mul]
      rw [show s.second + piece.length * s.first + weighted piece +
          (rest.length * s.first + rest.length * total piece) + weighted rest =
          s.second + (piece.length * s.first + rest.length * s.first) +
            (weighted piece + rest.length * total piece + weighted rest) by omega]

end Pieces

/-! ### The checksum -/

/-- **The number from `1` to `255`** that is equal to a number modulo `255`. -/
def residue (n : Nat) : Nat :=
  if n % 255 = 0 then 255 else n % 255

theorem residue_pos (n : Nat) : 0 < residue n := by
  unfold residue
  split <;> omega

theorem residue_le (n : Nat) : residue n ≤ 255 := by
  unfold residue
  split <;> omega

theorem residue_eq_iff {m n : Nat} : residue m = residue n ↔ m ≡ n [MOD 255] := by
  unfold residue Nat.ModEq
  split <;> split <;> omega

/-- The last reduction. -/
theorem foldHigh_eq_residue {sum : Nat} (hpos : 0 < sum) (hle : sum ≤ 510) :
    foldHigh sum = residue sum := by
  unfold foldHigh residue
  split <;> omega

/-- **Where the reductions fall does not matter**: the last one leaves the residues of the sums. -/
theorem reduce_addPieces {data : List UInt8} {pieces : List (List UInt8)}
    (h : IsChunking data pieces) :
    (addPieces seed pieces).reduce = ⟨residue (total data), residue (weighted data)⟩ := by
  obtain ⟨rfl, hlength⟩ := h
  have hsmall := isSmall_addPieces isSmall_seed hlength
  obtain ⟨hfirst, hsecond⟩ := addPieces_modEq seed pieces
  have htotal : residue (addPieces seed pieces).first = residue (total pieces.flatten) :=
    residue_eq_iff.mpr (hfirst.trans (by simp [seed, Nat.ModEq]))
  have hweighted : residue (addPieces seed pieces).second = residue (weighted pieces.flatten) :=
    residue_eq_iff.mpr (hsecond.trans (by simp [seed, Nat.ModEq, Nat.add_mod]))
  rw [Sums.reduce, foldHigh_eq_residue hsmall.first_pos hsmall.first_le,
    foldHigh_eq_residue hsmall.second_pos hsmall.second_le, htotal, hweighted]

/-- **The checksum is made of the residues of the two sums.** -/
theorem compute_eq (data : List UInt8) :
    compute data = UInt16.ofNat (residue (weighted data) * 256 + residue (total data)) := by
  rw [compute, addChunks_eq_addPieces, reduce_addPieces (isChunking_chunks data)]

theorem toNat_compute (data : List UInt8) :
    (compute data).toNat = residue (weighted data) * 256 + residue (total data) := by
  have htotal := residue_le (total data)
  have hweighted := residue_le (weighted data)
  rw [compute_eq, UInt16.toNat_ofNat', Nat.mod_eq_of_lt (by omega)]

/-- **The checksum is made of the residues of two sums over the bytes.** On the way, no sum has more
than `16` bits, wherever the reductions fall, and neither byte of the checksum is zero. -/
theorem toNat_compute_eq_sums (data : List UInt8) :
    (compute data).toNat =
        256 * residue (∑ i : Fin data.length, (data.length - i) * data[i].toNat) +
          residue (∑ i : Fin data.length, data[i].toNat) ∧
      IsChunking data (chunks data) ∧ addChunks seed data = addPieces seed (chunks data) ∧
      (∀ pieces, IsChunking data pieces →
        (∀ s ∈ runningSums seed pieces, s.first < 2 ^ 16 ∧ s.second < 2 ^ 16) ∧
          (addPieces seed pieces).reduce = (addChunks seed data).reduce) ∧
      (compute data).toNat / 256 ≠ 0 ∧ (compute data).toNat % 256 ≠ 0 := by
  rw [← weighted_eq_sum, ← total_eq_sum]
  have hvalue := toNat_compute data
  have htotal := residue_le (total data)
  have htotal' := residue_pos (total data)
  have hweighted := residue_pos (weighted data)
  refine ⟨by omega, isChunking_chunks data, addChunks_eq_addPieces seed data, fun pieces h => ?_,
    by omega, by omega⟩
  refine ⟨fun s hs => lt_of_mem_runningSums isSmall_seed h.length_le hs, ?_⟩
  rw [reduce_addPieces h, addChunks_eq_addPieces, reduce_addPieces (isChunking_chunks data)]

/-- Two bytes, with a reduction between them that the checksum itself does not make. -/
theorem toNat_compute_eq_sums_pair :
    IsChunking [255, 1] [[255], [1]] ∧
      (addPieces seed [[255], [1]]).reduce = (addChunks seed [255, 1]).reduce ∧
      (compute [255, 1]).toNat = 256 * 1 + 1 := by
  have hpieces : IsChunking [255, 1] [[255], [1]] := ⟨rfl, by decide⟩
  obtain ⟨hvalue, -, -, hall, -⟩ := toNat_compute_eq_sums [255, 1]
  exact ⟨hpieces, (hall _ hpieces).2, hvalue.trans (by decide)⟩

theorem compute_eq_compute_iff {first second : List UInt8} :
    compute first = compute second ↔
      total first ≡ total second [MOD 255] ∧ weighted first ≡ weighted second [MOD 255] := by
  have hfirst := residue_le (total first)
  have hsecond := residue_le (total second)
  rw [← residue_eq_iff, ← residue_eq_iff, ← UInt16.toNat_inj, toNat_compute, toNat_compute]
  omega

/-- **Two bytes in one place of a byte string** have the same checksum exactly when they are equal
modulo `255`. -/
theorem compute_append_cons_iff (before behind : List UInt8) (x y : UInt8) :
    compute (before ++ x :: behind) = compute (before ++ y :: behind) ↔
      x.toNat ≡ y.toNat [MOD 255] := by
  rw [compute_eq_compute_iff, total_append, total_append, weighted_append, weighted_append,
    total_cons, total_cons, weighted_cons, weighted_cons, List.length_cons, List.length_cons]
  constructor
  · rintro ⟨htotal, -⟩
    exact Nat.ModEq.add_right_cancel' _ (Nat.ModEq.add_left_cancel' _ htotal)
  · intro h
    exact ⟨(h.add_right _).add_left _, ((h.mul_left _).add_right _).add_left _⟩

end WireCodec.Fletcher16
