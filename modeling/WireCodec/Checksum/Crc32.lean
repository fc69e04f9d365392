/-!
# A 32-bit cyclic redundancy check

The check is the reflected one with polynomial `0xEDB88320`: the register starts at zero, takes
in one byte after another, least significant bit first, and is the result as it stands. (The
variant that starts with all ones and flips the result is
`~~~(WireCodec.Crc32.update (~~~0) data)`.)
-/

namespace WireCodec.Crc32

/-- The polynomial, the coefficient of the highest power below `32` in the lowest bit. -/
def polynomial : UInt32 := 0xEDB88320

/-- One bit of division: the register moves down by one place, and the polynomial is taken off
if a one fell out. -/
def step (register : UInt32) : UInt32 :=
  if register &&& 1 = 1 then (register >>> 1) ^^^ polynomial else register >>> 1

/-- `n` bits of division. -/
def steps : Nat → UInt32 → UInt32
  | 0, register => register
  | n + 1, register => steps n (step register)

/-- Take in one byte. -/
def addByte (register : UInt32) (byte : UInt8) : UInt32 :=
  steps 8 (register ^^^ byte.toUInt32)

/-- **Continue from a register** over more bytes. -/
def update (register : UInt32) (data : List UInt8) : UInt32 :=
  data.foldl addByte register

/-- **The check of a byte string.** -/
def compute (data : List UInt8) : UInt32 :=
  update 0 data

@[simp] theorem update_nil (register : UInt32) : update register [] = register := rfl

@[simp] theorem update_cons (register : UInt32) (b : UInt8) (data : List UInt8) :
    update register (b :: data) = update (addByte register b) data := rfl

/-- The bytes may be taken in piece by piece. -/
theorem update_append (register : UInt32) (first second : List UInt8) :
    update register (first ++ second) = update (update register first) second :=
  List.foldl_append

theorem steps_add (m n : Nat) (register : UInt32) :
    steps (m + n) register = steps n (steps m register) := by
  induction m generalizing register with
  | zero => rw [Nat.zero_add, steps]
  | succ m ih => rw [Nat.succ_add, steps, steps, ih]

end WireCodec.Crc32
