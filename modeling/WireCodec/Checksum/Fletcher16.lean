/-!
# Fletcher's 16-bit checksum

Two running sums are kept: the sum of the bytes, and the sum of the first sum's values. Both
start at `255` and are kept modulo `255` by adding the part above the low eight bits back in.
This is done after every `WireCodec.Fletcher16.chunkSize` bytes, which is often enough for both
sums to stay below `2 ^ 16`, and once more at the end. The second sum is the high byte.
-/

namespace WireCodec.Fletcher16

/-- The two running sums. -/
structure Sums where
  /-- The sum of the bytes. -/
  first : Nat
  /-- The sum of the values that the first sum has gone through. -/
  second : Nat
deriving DecidableEq, Repr

/-- How many bytes are summed up between two reductions. -/
def chunkSize : Nat := 20

/-- Both sums before the first byte. -/
def seed : Sums := ⟨255, 255⟩

/-- Add one byte. -/
def Sums.add (s : Sums) (byte : UInt8) : Sums :=
  ⟨s.first + byte.toNat, s.second + (s.first + byte.toNat)⟩

/-- A sum with the part above its low eight bits added back in. It is the same modulo `255`. -/
def foldHigh (sum : Nat) : Nat :=
  sum % 256 + sum / 256

/-- Reduce both sums. -/
def Sums.reduce (s : Sums) : Sums :=
  ⟨foldHigh s.first, foldHigh s.second⟩

/-- Add the bytes, reducing after each chunk of `chunkSize` bytes and after what remains. -/
def addChunks (s : Sums) (data : List UInt8) : Sums :=
  if data.isEmpty then s
  else addChunks ((data.take chunkSize).foldl Sums.add s).reduce (data.drop chunkSize)
termination_by data.length
decreasing_by
  cases data with
  | nil => contradiction
  | cons b data => simp only [chunkSize, List.length_drop, List.length_cons]; omega

/-- **The checksum of a byte string.** -/
def compute (data : List UInt8) : UInt16 :=
  let sums := (addChunks seed data).reduce
  UInt16.ofNat (sums.second * 256 + sums.first)

@[simp] theorem addChunks_nil (s : Sums) : addChunks s [] = s := by
  rw [addChunks]
  simp

/-- A reduction does not change a sum modulo `255`. -/
theorem foldHigh_mod (sum : Nat) : foldHigh sum % 255 = sum % 255 := by
  unfold foldHigh
  omega

end WireCodec.Fletcher16
