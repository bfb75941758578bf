/-!
# Throughput

A meter counts what was sent. Time is cut into windows of at least one second: a window ends with
the first record that comes a second or more after it began. Until the first window ends, the rate
is the running one.
-/

namespace LiveIngest.Chunk

/-- Counters of bytes sent; times are milliseconds of one clock. -/
structure Meter where
  windowStart : Option Nat
  windowBytes : Nat
  totalBytes : Nat
  /-- The rate of the last window that ended. -/
  lastRate : Option Nat
  deriving DecidableEq, Repr

namespace Meter

def window : Nat := 1000

def initial : Meter := ⟨none, 0, 0, none⟩

/-- Kilobits per second, rounded down and clamped to 32 bits; a window shorter than a millisecond
counts as one. -/
def rate (bytes millis : Nat) : Nat :=
  min (bytes * 8 / max millis 1) 0xffffffff

def record (m : Meter) (now bytes : Nat) : Meter :=
  let start := m.windowStart.getD now
  let windowBytes := m.windowBytes + bytes
  let totalBytes := m.totalBytes + bytes
  if window ≤ now - start then
    { windowStart := some now, windowBytes := 0, totalBytes,
      lastRate := some (rate windowBytes (now - start)) }
  else { m with windowStart := some start, windowBytes, totalBytes }

/-- The rate at a time: that of the last whole window, or the running one before that. -/
def kbps (m : Meter) (now : Nat) : Nat :=
  match m.lastRate, m.windowStart with
  | some r, _ => r
  | none, some start => rate m.windowBytes (now - start)
  | none, none => 0

end Meter

end LiveIngest.Chunk
