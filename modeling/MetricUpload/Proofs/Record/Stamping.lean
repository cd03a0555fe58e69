import MetricUpload.Event
import MetricUpload.Proofs.Clock.SystemTime
import MetricUpload.Proofs.Json.Rereading
import MetricUpload.Proofs.Record.Frame
import MetricUpload.Proofs.Upload.Loading

namespace MetricUpload

namespace Json

theorem Alike.at? {R : Number → Number → Prop} {v w part : Json} {path : List Segment}
    (h : Alike R v w) (hpart : v.at? path = some part) :
    ∃ other, w.at? path = some other ∧ Alike R part other := by
  induction path generalizing v w with
  | nil =>
    cases hpart
    exact ⟨w, rfl, h⟩
  | cons segment path ih =>
    cases segment with
    | key name =>
      cases h with
      | @object fields others hs =>
        cases hlookup : fields.lookup name with
        | none => simp only [Json.at?, hlookup, reduceCtorEq] at hpart
        | some member =>
          obtain ⟨other, hother, hmember⟩ := hs.lookup hlookup
          simp only [Json.at?, hlookup] at hpart
          simpa only [Json.at?, hother] using ih hmember hpart
      | _ => cases hpart
    | item index =>
      cases h with
      | @array items others hs =>
        cases hitem : items[index]? with
        | none => simp only [Json.at?, hitem, reduceCtorEq] at hpart
        | some item =>
          obtain ⟨other, hother, hitem'⟩ := hs.getElem? hitem
          simp only [Json.at?, hitem] at hpart
          simpa only [Json.at?, hother] using ih hitem' hpart
      | _ => cases hpart

end Json

namespace Event

/-- The message of a record gives back every whole number at its place, whatever becomes of the
doubles around it. -/
theorem exists_whole_of_message {r : Record} (h : (Json.object r).Fits 0) (timestamp : Int64) :
    ∃ back, RecordSet.ofText (ofRecord r timestamp).message = .ok [back] ∧
      ∀ path i, (Json.object r).at? path = some (.number (.int i)) →
        (Json.object back).at? path = some (.number (.int i)) := by
  obtain ⟨w, hread, hnear⟩ := h.exists_near
  cases hnear with
  | @object _ back hs =>
    refine ⟨back, RecordSet.ofText_eq_ok_iff.mpr ⟨_, hread, rfl⟩, ?_⟩
    intro path i hi
    obtain ⟨other, hother, hnumber⟩ := (Json.Alike.object hs).at? hi
    cases hnumber with
    | number hn =>
      cases hn
      exact hother

end Event

namespace Record

/-- A second before a reading is counted in 64 bits as long as it is no less than their least number. -/
theorem toInt_sub_second {now : Int64} (h : Int64.minValue.toInt + 1000 ≤ now.toInt) :
    (now - 1000).toInt = now.toInt - 1000 := by
  have hleast : Int64.minValue.toInt = -9223372036854775808 := rfl
  have hless := Int64.toInt_lt now
  have hsecond : (1000 : Int64).toInt = 1000 := rfl
  rw [Int64.toInt_sub, hsecond]
  exact Int.bmod_eq_of_le (by omega) (by omega)

/-- A record with metadata is given the time a second before the reading. -/
theorem exists_stamped {now : Int64} {r : Record} {old : Fields Json}
    (h : Int64.minValue.toInt + 1000 ≤ now.toInt)
    (hold : r.lookup metadataKey = some (.object old)) :
    ∃ dated, r.backdate now = .ok dated ∧
      (Json.object dated).at? timestampPath = some (.number (.int (now - 1000).toInt)) := by
  refine ⟨_, backdate_of_object hold now, ?_⟩
  rw [toInt_sub_second h, timestampPath, Json.at?_put_self, Json.at?_put_self]
  rfl

end Record

namespace SystemTime

/-- A clock reads zero before the epoch and from then on the milliseconds that have passed, in 64 bits.
Below `2 ^ 63` milliseconds no reading is negative, the readings never decrease, and a second can be
taken off. What is left is the time that metadata are given, and that is read from the message of every
record within the limits of the reader. -/
theorem stamped_exactly (t : SystemTime) :
    t.Reads t.instant.unixMillis ∧
    (t.instant.Countable →
      0 ≤ t.instant.unixMillis.toInt ∧ t.instant.unixMillis.toInt ≤ Int64.maxValue.toInt ∧
      (0 ≤ t.seconds.toInt → t.HasPassed t.instant.unixMillis.toInt) ∧
      (∀ s : SystemTime, s.instant.nanoseconds ≤ t.instant.nanoseconds →
        s.instant.unixMillis.toInt ≤ t.instant.unixMillis.toInt) ∧
      (t.instant.unixMillis - 1000).toInt = t.instant.unixMillis.toInt - 1000 ∧
      ((t.instant.unixMillis - 1000).toInt < 0 ↔ t.instant.nanoseconds < 1000000000) ∧
      ∀ (r : Record) (old : Fields Json), r.lookup metadataKey = some (.object old) →
        ∃ dated, r.backdate t.instant.unixMillis = .ok dated ∧
          (Json.object dated).at? timestampPath =
            some (.number (.int (t.instant.unixMillis - 1000).toInt)) ∧
          ((Json.object r).Fits 0 → ∀ time : Int64,
            ∃ back, RecordSet.ofText (Event.ofRecord dated time).message = .ok [back] ∧
              (Json.object back).at? timestampPath =
                some (.number (.int (t.instant.unixMillis - 1000).toInt)))) := by
  refine ⟨reads_unixMillis t, fun countable => ?_⟩
  have hreading := Instant.toInt_unixMillis countable
  have hnonneg := Instant.unixMillis_nonneg countable
  have hroom : Int64.minValue.toInt + 1000 ≤ t.instant.unixMillis.toInt := by
    have hleast : Int64.minValue.toInt = -9223372036854775808 := rfl
    omega
  have hsub := Record.toInt_sub_second hroom
  refine ⟨hnonneg, Int64.toInt_le _, ?_, ?_, hsub, ?_, ?_⟩
  · intro since
    have hsince := mt (instant_neg_iff t).mp (Int.not_lt.mpr since)
    rw [hreading, if_neg hsince]
    exact hasPassed_ediv t
  · intro s earlier
    exact Instant.unixMillis_mono (Int.lt_of_le_of_lt earlier countable) countable earlier
  · rw [hsub, hreading]
    split <;> omega
  · intro r old hold
    obtain ⟨dated, hdated, hstamp⟩ := Record.exists_stamped hroom hold
    refine ⟨dated, hdated, hstamp, fun hfits time => ?_⟩
    obtain ⟨back, hback, hwhole⟩ :=
      Event.exists_whole_of_message (Record.backdate_fits hroom hfits hdated) time
    exact ⟨back, hback, hwhole _ _ hstamp⟩

/-- A record with a time that is no number, and a double that its own message does not give back. -/
def unstamped : Record :=
  [("_aws", .object [("Timestamp", .string "never")]),
    ("latency", .number (.float ⟨false, 5753311227232262, -49, by decide⟩))]

def endOfFirstSecond : SystemTime := ⟨0, 999999999, by decide⟩

/-- The last nanosecond that can be counted, and the one after it. -/
def lastCountable : SystemTime := ⟨9223372036854775, 807999999, by decide⟩

def firstUncountable : SystemTime := ⟨9223372036854775, 808000000, by decide⟩

theorem stamped_exactly_limits :
    (∃ dated back, unstamped.backdate endOfFirstSecond.instant.unixMillis = .ok dated ∧
      RecordSet.ofText (Event.ofRecord dated 0).message = .ok [back] ∧
      (Json.object back).at? timestampPath = some (.number (.int (-1)))) ∧
    (∃ dated back, unstamped.backdate lastCountable.instant.unixMillis = .ok dated ∧
      RecordSet.ofText (Event.ofRecord dated 0).message = .ok [back] ∧
      (Json.object back).at? timestampPath = some (.number (.int 9223372036854774807))) ∧
    firstUncountable.instant.unixMillis.toBitVec = BitVec.ofNat 64 9223372036854775808 := by
  have hfits : (Json.object unstamped).Fits 0 := by decide
  have hold : unstamped.lookup metadataKey = some (.object [("Timestamp", .string "never")]) := rfl
  refine ⟨?_, ?_, ((stamped_exactly firstUncountable).1.sinceEpoch (by decide)).2⟩
  · obtain ⟨-, -, -, -, -, -, hrecord⟩ :=
      (stamped_exactly endOfFirstSecond).2 (by decide : endOfFirstSecond.instant.Countable)
    obtain ⟨dated, hdated, -, hread⟩ := hrecord unstamped _ hold
    obtain ⟨back, hback, hstamp⟩ := hread hfits 0
    exact ⟨dated, back, hdated, hback, hstamp⟩
  · obtain ⟨-, -, -, -, -, -, hrecord⟩ :=
      (stamped_exactly lastCountable).2 (by decide : lastCountable.instant.Countable)
    obtain ⟨dated, hdated, -, hread⟩ := hrecord unstamped _ hold
    obtain ⟨back, hback, hstamp⟩ := hread hfits 0
    exact ⟨dated, back, hdated, hback, hstamp⟩

end SystemTime

end MetricUpload
