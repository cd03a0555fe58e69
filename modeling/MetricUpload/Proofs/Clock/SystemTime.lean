import MetricUpload.Proofs.Clock.Reading

namespace MetricUpload

/-- A time as the system clock gives it: whole seconds since the Unix epoch, negative before it, and
the nanoseconds that have passed since the last of them. -/
structure SystemTime where
  seconds : Int64
  nanoseconds : Nat
  lt_second : nanoseconds < 1000000000

namespace SystemTime

def instant (t : SystemTime) : Instant := .ofSeconds t.seconds.toInt t.nanoseconds

/-- Milliseconds since the epoch, counted apart for the seconds and for what has passed since. -/
def elapsedMillis (t : SystemTime) : Nat :=
  t.seconds.toInt.toNat * 1000 + t.nanoseconds / 1000000

/-- So many milliseconds have passed entirely since the epoch, and the next one has not. -/
def HasPassed (t : SystemTime) (millis : Int) : Prop :=
  millis * 1000000 ≤ t.instant.nanoseconds ∧ t.instant.nanoseconds < (millis + 1) * 1000000

/-- The reading of a clock at this time: zero before the epoch, and from then on the lower 64 bits of
the number of milliseconds that have passed. -/
structure Reads (t : SystemTime) (reading : Int64) : Prop where
  beforeEpoch : t.seconds.toInt < 0 → reading = 0
  sinceEpoch : 0 ≤ t.seconds.toInt →
    t.HasPassed t.elapsedMillis ∧ reading.toBitVec = BitVec.ofNat 64 t.elapsedMillis

theorem nanoseconds_instant (t : SystemTime) :
    t.instant.nanoseconds = t.seconds.toInt * 1000000000 + t.nanoseconds := rfl

/-- The nanoseconds never make up for a missing second. -/
theorem instant_neg_iff (t : SystemTime) : t.instant.nanoseconds < 0 ↔ t.seconds.toInt < 0 := by
  have hrest := t.lt_second
  rw [nanoseconds_instant]
  omega

/-- Rounding down what has passed since the last second rounds down the whole. -/
theorem elapsedMillis_eq (t : SystemTime) (since : 0 ≤ t.seconds.toInt) :
    (t.elapsedMillis : Int) = t.instant.nanoseconds / 1000000 := by
  rw [nanoseconds_instant]
  simp only [elapsedMillis]
  omega

theorem hasPassed_ediv (t : SystemTime) : t.HasPassed (t.instant.nanoseconds / 1000000) := by
  unfold HasPassed
  omega

theorem reads_unixMillis (t : SystemTime) : t.Reads t.instant.unixMillis := by
  refine ⟨?_, ?_⟩
  · intro before
    rw [Instant.unixMillis, if_pos ((instant_neg_iff t).mpr before)]
  · intro since
    have hsince := mt (instant_neg_iff t).mp (Int.not_lt.mpr since)
    have helapsed := elapsedMillis_eq t since
    constructor
    · rw [helapsed]
      exact hasPassed_ediv t
    · rw [Instant.unixMillis, if_neg hsince, Int64.toBitVec_ofInt, ← helapsed, BitVec.ofInt_natCast]

end SystemTime

end MetricUpload
