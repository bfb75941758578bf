/-!
# Emulation prevention

Inside a NAL unit a byte 3 is put after two zero bytes wherever the payload could be taken for a
start code. `Emulation.remove` undoes this: a byte 3 that follows two zeros is dropped, and the
count of zeros starts again behind it.
-/

namespace LiveIngest.Emulation

/-- Drop the inserted bytes, when `zeros` zero bytes stand directly in front. -/
def removeAfter (zeros : Nat) : List UInt8 → List UInt8
  | [] => []
  | b :: rest =>
    if 2 ≤ zeros ∧ b = 3 then removeAfter 0 rest
    else b :: removeAfter (if b = 0 then zeros + 1 else 0) rest

/-- The payload of a NAL unit without the inserted bytes. -/
def remove (bytes : List UInt8) : List UInt8 :=
  removeAfter 0 bytes

end LiveIngest.Emulation
