import MetricUpload.Clock

namespace MetricUpload

namespace Instant

/-- Before the end of what milliseconds of 64 bits with a sign can count. -/
def Countable (t : Instant) : Prop := t.nanoseconds < 9223372036854775808 * 1000000

instance (t : Instant) : Decidable t.Countable := inferInstanceAs (Decidable (_ < _))

theorem toInt_unixMillis {t : Instant} (h : t.Countable) :
    t.unixMillis.toInt = if t.nanoseconds < 0 then 0 else t.nanoseconds / 1000000 := by
  have hless : t.nanoseconds < 9223372036854775808 * 1000000 := h
  unfold unixMillis
  by_cases hneg : t.nanoseconds < 0
  · simp only [hneg, ↓reduceIte]
    rfl
  · simp only [hneg, ↓reduceIte]
    exact Int64.toInt_ofInt_of_le (by omega) (by omega)

theorem unixMillis_nonneg {t : Instant} (h : t.Countable) : 0 ≤ t.unixMillis.toInt := by
  rw [toInt_unixMillis h]
  split <;> omega

/-- Where one instant lies at most so many milliseconds before another, so do the readings, however
they are rounded. -/
theorem unixMillis_lag {s t : Instant} (hs : s.Countable) (ht : t.Countable) (millis : Nat)
    (h : s.nanoseconds - millis * 1000000 ≤ t.nanoseconds) :
    s.unixMillis.toInt - millis ≤ t.unixMillis.toInt := by
  rw [toInt_unixMillis hs, toInt_unixMillis ht]
  split <;> split <;> omega

theorem unixMillis_mono {s t : Instant} (hs : s.Countable) (ht : t.Countable)
    (h : s.nanoseconds ≤ t.nanoseconds) : s.unixMillis.toInt ≤ t.unixMillis.toInt := by
  have hlag := unixMillis_lag hs ht 0 (by omega)
  omega

end Instant

end MetricUpload
