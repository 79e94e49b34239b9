/-! Durations, from nothing to 2^64 seconds less a nanosecond. -/
namespace UtilityCss

/-- The nanoseconds of a second. -/
def nanosPerSecond : Nat := 1000000000

/-- A duration in nanoseconds. -/
structure Duration where
  nanos : Nat
  bounded : nanos < 0x10000000000000000 * nanosPerSecond
  deriving DecidableEq, Repr

namespace Duration

/-- The longest duration, in nanoseconds. -/
def maxNanos : Nat := 0x10000000000000000 * nanosPerSecond - 1

/-- As many nanoseconds as asked for; what is too long becomes the longest duration. -/
def ofNanos (n : Nat) : Duration where
  nanos := min n maxNanos
  bounded := by unfold maxNanos nanosPerSecond; omega

def ofSeconds (s : Nat) : Duration := ofNanos (s * nanosPerSecond)

/-- The whole seconds. -/
def seconds (d : Duration) : Nat := d.nanos / nanosPerSecond

/-- The nanoseconds beyond the whole seconds. -/
def subsecond (d : Duration) : Nat := d.nanos % nanosPerSecond

/-- A multiple, cut off at the longest duration. -/
def scale (k : Nat) (d : Duration) : Duration := ofNanos (d.nanos * k)

end Duration
end UtilityCss
