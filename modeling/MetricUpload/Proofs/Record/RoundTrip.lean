import MetricUpload.Proofs.Json.CompactText
import MetricUpload.Event
import MetricUpload.RecordSet

namespace MetricUpload

namespace RecordSet

theorem ofText_object {r : Record} (hv : (Json.object r).Fits 0)
    (hf : (Json.object r).WithoutFloats) : ofText (Json.object r).text = .ok [r] := by
  unfold ofText
  rw [Json.read_text hv hf]
  rfl

end RecordSet

namespace Event

/-- The message of a record without doubles gives back that record and no other, with every key at
its place, and the record gives back the message. -/
theorem ofRecord_roundTrip {r : Record} (timestamp : Int64)
    (distinct : (Json.object r).DistinctKeys) (shallow : (Json.object r).depth ≤ 127)
    (integers : ∀ n ∈ (Json.object r).numbers, ∃ i, n = .int i ∧
      -9223372036854775808 ≤ i ∧ i ≤ 18446744073709551615) :
    (ofRecord r timestamp).timestamp = timestamp ∧
      ∃ back, RecordSet.ofText (ofRecord r timestamp).message = .ok [back] ∧ back = r ∧
        ofRecord back timestamp = ofRecord r timestamp := by
  obtain ⟨hv, hf⟩ := Json.fits_of_integers distinct shallow integers
  exact ⟨rfl, r, RecordSet.ofText_object hv hf, rfl, rfl⟩

/-- Both ends of the range, every kind of escape, and a character outside the first plane. -/
def extremes : Record :=
  [("\"\\/\n\x00\x1f\x7f", .array [.number (.int (-9223372036854775808)), .object [], .array []]),
    ("", .object [("𝄞", .number (.int 18446744073709551615)), ("", .null)])]

theorem ofRecord_roundTrip_extremes :
    (Json.object extremes).DistinctKeys ∧ (Json.object extremes).depth ≤ 127 ∧
      RecordSet.ofText (ofRecord extremes 7).message = .ok [extremes] := by
  have distinct : (Json.object extremes).DistinctKeys := by decide
  have shallow : (Json.object extremes).depth ≤ 127 := by decide
  obtain ⟨_, back, hback, he, _⟩ := ofRecord_roundTrip 7 distinct shallow
    (by simp [extremes, Json.numbers, Json.memberNumbers, Json.itemNumbers])
  rw [he] at hback
  exact ⟨distinct, shallow, hback⟩

end Event

end MetricUpload
