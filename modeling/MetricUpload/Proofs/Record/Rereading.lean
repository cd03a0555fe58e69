import MetricUpload.Event
import MetricUpload.Proofs.Json.Rereading
import MetricUpload.Proofs.Upload.LoneRecord

namespace MetricUpload

namespace Event

/-- The message of a record is read as one record that differs from it in its doubles at the most:
each of them keeps its sign and moves by no more than eight units of its last place. They are all the
same exactly when each is the double that is read for its own text, as it is when that text is brief. -/
theorem ofRecord_reread {r : Record} (timestamp : Int64) (distinct : (Json.object r).DistinctKeys)
    (shallow : (Json.object r).depth ≤ 127)
    (integers : ∀ i, .int i ∈ (Json.object r).numbers →
      -9223372036854775808 ≤ i ∧ i ≤ 18446744073709551615) :
    ∃ back, RecordSet.ofText (ofRecord r timestamp).message = .ok [back] ∧
      Json.Alike Number.Near (.object r) (.object back) ∧
      (back = r ↔ ∀ f, .float f ∈ (Json.object r).numbers →
        Json.read (Json.number (.float f)).text = .ok (.number (.float f))) ∧
      ((∀ f, .float f ∈ (Json.object r).numbers → f.Brief) → back = r) := by
  have hrange : ∀ n ∈ (Json.object r).numbers, n.InRange := by
    intro n hn
    cases n with
    | int i => exact Number.inRange_int_iff.mpr (integers i hn)
    | float f => trivial
  obtain ⟨w, hw⟩ := Json.exists_alike fun n hn => Number.exists_rereads (hrange n hn)
  have hread := Json.read_text_of_alike distinct shallow hw
  have hself := hw.eq_iff fun _ _ _ h h' => h.unique h'
  have hnear := hw.mono fun n hn m hm => Number.Rereads.near (hrange n hn) hm
  cases hw with
  | @object _ back _ =>
    have hsteady : back = r ↔ ∀ f, .float f ∈ (Json.object r).numbers →
        (Number.float f).Rereads (.float f) := by
      rw [← Json.object.injEq, hself]
      constructor
      · intro h f hf
        exact h _ hf
      · intro h n hn
        cases n with
        | int i => exact Number.rereads_int (hrange _ hn)
        | float f => exact h f hn
    exact ⟨back, RecordSet.ofText_eq_ok_iff.mpr ⟨_, hread, rfl⟩, hnear, hsteady,
      fun hbrief => hsteady.mpr fun f hf => Number.rereads_brief (hbrief f hf)⟩

/-- Whole and fractional amounts, which stay what they are. -/
def briefly : Record :=
  [("count", .number (.int 3)),
    ("ratio", .array [.number (.float ⟨false, 7205759403792794, -56, by decide⟩), .null])]

theorem ofRecord_reread_briefly :
    (Json.object briefly).DistinctKeys ∧ (Json.object briefly).depth ≤ 127 ∧
      (ofRecord briefly 7).message = "\x7b\"count\":3,\"ratio\":[0.1,null]\x7d" ∧
      RecordSet.ofText (ofRecord briefly 7).message = .ok [briefly] := by
  have distinct : (Json.object briefly).DistinctKeys := by decide
  have shallow : (Json.object briefly).depth ≤ 127 := by decide
  obtain ⟨back, hback, -, -, hsame⟩ := ofRecord_reread 7 distinct shallow
    (by simp [briefly, Json.numbers, Json.memberNumbers, Json.itemNumbers])
  have hbrief : ∀ f, .float f ∈ (Json.object briefly).numbers → f.Brief := by
    intro f hf
    obtain rfl : f = ⟨false, 7205759403792794, -56, by decide⟩ := by
      simpa [briefly, Json.numbers, Json.memberNumbers, Json.itemNumbers] using hf
    decide +kernel
  rw [hsame hbrief] at hback
  exact ⟨distinct, shallow, by decide +kernel, hback⟩

/-- A record with a measured time. -/
def measured (significand : Nat) (h : Binary64.Canonical significand (-49)) : Record :=
  [("latency", .number (.float ⟨false, significand, -49, h⟩))]

/-- A time of seventeen digits is read from its own message as the double below it. -/
theorem ofRecord_reread_drifts :
    RecordSet.ofText "\x7b\"latency\":10.219933747692277137\x7d" =
        .ok [measured 5753311227232262 (by decide)] ∧
      (ofRecord (measured 5753311227232262 (by decide)) 5000).message =
        "\x7b\"latency\":10.219933747692277\x7d" ∧
      RecordSet.ofText "\x7b\"latency\":10.219933747692277\x7d" =
        .ok [measured 5753311227232261 (by decide)] ∧
      RecordSet.same [measured 5753311227232261 (by decide)]
        [measured 5753311227232262 (by decide)] = false := by
  refine ⟨?_, by decide +kernel, ?_, rfl⟩
  · exact RecordSet.ofText_eq_ok_iff.mpr ⟨_, Json.read_eq_ok_iff.mpr (by rfl), rfl⟩
  · exact RecordSet.ofText_eq_ok_iff.mpr ⟨_, Json.read_eq_ok_iff.mpr (by rfl), rfl⟩

end Event

end MetricUpload
