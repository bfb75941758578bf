/-!
# Counting what was received

A peer may announce a window: it then wants to hear of every window of bytes that arrived. The count
since the last acknowledgement runs over the slices of input, and a slice that makes it exceed the
window is acknowledged at once, with the total of all bytes received.
-/

namespace LiveIngest

/-- What a connection received, counted in bytes. -/
structure Intake where
  total : Nat
  /-- The peer's window, 0 until it announces one. -/
  window : UInt32
  /-- What was counted against the window since the last acknowledgement, at most 2 ^ 32 - 1. -/
  pending : Nat
  deriving DecidableEq, Repr

namespace Intake

def initial : Intake := ⟨0, 0, 0⟩

/-- Count a slice of `n` bytes. Returns the sequence number of the acknowledgement that is due, if
one is. -/
def count (i : Intake) (n : Nat) : Intake × Option UInt32 :=
  let total := i.total + n
  -- Without a window nothing is counted against it.
  if i.window = 0 then ({ i with total }, none)
  else
    let pending := min (i.pending + n % 0x100000000) 0xffffffff
    if i.window.toNat < pending then ({ i with total, pending := 0 }, some (.ofNat total))
    else ({ i with total, pending }, none)

end Intake

end LiveIngest
