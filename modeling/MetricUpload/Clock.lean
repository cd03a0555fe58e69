namespace MetricUpload

/-- A point of time, in nanoseconds since the Unix epoch. -/
structure Instant where
  nanoseconds : Int
  deriving DecidableEq

namespace Instant

def ofSeconds (seconds : Int) (nanoseconds : Nat) : Instant :=
  ⟨seconds * 1000000000 + nanoseconds⟩

def ofMillis (millis : Int) : Instant := ⟨millis * 1000000⟩

/-- Whole milliseconds since the epoch, reduced to 64 bits; zero before the epoch. -/
def unixMillis (t : Instant) : Int64 :=
  if t.nanoseconds < 0 then 0 else Int64.ofInt (t.nanoseconds / 1000000)

end Instant

/-- A clock as a sequence of readings, of which some have been taken. -/
structure Clock where
  reading : Nat → Int64
  taken : Nat

namespace Clock

def ofReadings (reading : Nat → Int64) : Clock := ⟨reading, 0⟩

def ofInstants (instant : Nat → Instant) : Clock := ⟨fun k => (instant k).unixMillis, 0⟩

/-- The next reading. -/
def now (clock : Clock) : Int64 := clock.reading clock.taken

def tick (clock : Clock) : Clock := { clock with taken := clock.taken + 1 }

end Clock

end MetricUpload
