import MetricUpload.Proofs.Record.Dating
import MetricUpload.Proofs.Record.RoundTrip
import MetricUpload.Proofs.Upload.Effects
import MetricUpload.Proofs.Upload.Loading

namespace MetricUpload

namespace Event

theorem ofRecords_length (clock : Clock) (records : List Record) :
    (ofRecords clock records).1.length = records.length := by
  induction records generalizing clock with
  | nil => rfl
  | cons r records ih => simp only [ofRecords, List.length_cons, ih]

theorem ofRecords_clock (clock : Clock) (records : List Record) :
    (ofRecords clock records).2 = { clock with taken := clock.taken + records.length } := by
  induction records generalizing clock with
  | nil => rfl
  | cons r records ih =>
    simp only [ofRecords, ih, Clock.tick, List.length_cons]
    congr 1
    omega

/-- The event at a place is made of the record at this place and of the reading so much later. -/
theorem ofRecords_getElem (clock : Clock) (records : List Record) (i : Nat) :
    (ofRecords clock records).1[i]? =
      records[i]?.map fun r => ofRecord r (clock.reading (clock.taken + i)) := by
  induction records generalizing clock i with
  | nil => rfl
  | cons r records ih =>
    cases i with
    | zero => rfl
    | succ i =>
      have htaken : clock.tick.taken + i = clock.taken + (i + 1) := by
        simp only [Clock.tick]
        omega
      simp only [ofRecords, List.getElem?_cons_succ, ih, htaken]
      rfl

theorem exists_dated_of_event {now : Int64} {clock : Clock} {records dated : List Record}
    (h : (RecordSet.backdate now records).2 = .ok dated) {i : Nat} {r : Record} {event : Event}
    (hr : records[i]? = some r) (hevent : (ofRecords clock dated).1[i]? = some event) :
    ∃ sent, Record.Dated (now.toInt - 1000) r sent ∧
      event = ofRecord sent (clock.reading (clock.taken + i)) := by
  rw [ofRecords_getElem, Option.map_eq_some_iff] at hevent
  obtain ⟨sent, hsent, rfl⟩ := hevent
  exact ⟨sent, Record.dated_of_backdate (RecordSet.backdate_getElem h hr hsent), rfl⟩

end Event

namespace Upload

theorem run_of_load_error {disk : Disk} {path : String} {e : UploadError}
    (h : RecordSet.load disk path = .error e) (target : Target) (sink : Sink) (clock : Clock) :
    run disk path target sink clock = ⟨.error e, [], clock⟩ := by
  simp only [run, h, RecordSet.loadLog, after, failed, List.map_nil, List.nil_append]

theorem run_of_backdate {disk : Disk} {path : String} {clock : Clock} {records dated : List Record}
    (loaded : RecordSet.load disk path = .ok records)
    (hdated : (RecordSet.backdate clock.now records).2 = .ok dated) (target : Target) (sink : Sink) :
    (run disk path target sink clock).calls =
        [⟨target, (Event.ofRecords clock.tick dated).1⟩] ∧
      (run disk path target sink clock).result =
        sink target (Event.ofRecords clock.tick dated).1 := by
  simp only [run, loaded, hdated, calls_after, calls_send, result_after, result_send, and_self]

theorem run_of_backdate_error {disk : Disk} {path : String} {clock : Clock} {records : List Record}
    {e : UploadError} (loaded : RecordSet.load disk path = .ok records)
    (hdated : (RecordSet.backdate clock.now records).2 = .error e) (target : Target) (sink : Sink) :
    (run disk path target sink clock).result = .error e ∧
      (run disk path target sink clock).calls = [] ∧
      (run disk path target sink clock).clock = clock.tick := by
  simp only [run, loaded, hdated, result_after, result_failed, calls_after, calls_failed,
    clock_after, clock_failed, and_self]

/-- Only loaded and dated records come to the sink. -/
theorem exists_of_mem_calls {disk : Disk} {path : String} {target : Target} {sink : Sink}
    {clock : Clock} {call : Call} (h : call ∈ (run disk path target sink clock).calls) :
    ∃ records dated, RecordSet.load disk path = .ok records ∧
      (RecordSet.backdate clock.now records).2 = .ok dated ∧
        call = ⟨target, (Event.ofRecords clock.tick dated).1⟩ := by
  cases loaded : RecordSet.load disk path with
  | error e => simp [run, loaded] at h
  | ok records =>
    cases hdated : (RecordSet.backdate clock.now records).2 with
    | error e => simp [run, loaded, hdated] at h
    | ok dated =>
      rw [(run_of_backdate loaded hdated target sink).1] at h
      exact ⟨records, dated, rfl, hdated, List.mem_singleton.mp h⟩

/-- A file of records goes out in one call: an event a record, in their order, each at its own
reading of the clock, and each made of the record dated by the first reading and otherwise unchanged.
Without doubles its message gives that dated record back. -/
theorem run_delivers {disk : Disk} {path : String} {clock : Clock} {records : List Record}
    (hnow : Int64.minValue.toInt + 1000 ≤ clock.now.toInt)
    (loaded : RecordSet.load disk path = .ok records)
    (datable : ∀ r ∈ records, r.Datable)
    (target : Target) (sink : Sink) :
    ∃ events, (run disk path target sink clock).calls = [⟨target, events⟩] ∧
      (run disk path target sink clock).result = sink target events ∧
      events.length = records.length ∧
      ∀ (i : Nat) (r : Record) (event : Event), records[i]? = some r → events[i]? = some event →
        event.timestamp = clock.reading (clock.taken + (i + 1)) ∧
        ∃ sent, Record.Dated (clock.now.toInt - 1000) r sent ∧
          event = Event.ofRecord sent event.timestamp ∧
          ((Json.object r).WithoutFloats → RecordSet.ofText event.message = .ok [sent]) := by
  obtain ⟨dated, hdated⟩ : ∃ dated, (RecordSet.backdate clock.now records).2 = .ok dated :=
    RecordSet.exists_backdate_iff.mpr datable
  obtain ⟨hcalls, hresult⟩ := run_of_backdate loaded hdated target sink
  refine ⟨_, hcalls, hresult, ?_, ?_⟩
  · rw [Event.ofRecords_length, RecordSet.length_of_backdate hdated]
  · intro i r event hr hevent
    rw [Event.ofRecords_getElem, Option.map_eq_some_iff] at hevent
    obtain ⟨sent, hsent, rfl⟩ := hevent
    have hbackdate := RecordSet.backdate_getElem hdated hr hsent
    refine ⟨?_, sent, Record.dated_of_backdate hbackdate, rfl, ?_⟩
    · simp only [Event.ofRecord, Clock.tick]
      congr 1
      omega
    · intro hf
      have hfits := RecordSet.load_fits loaded (List.mem_of_getElem? hr)
      exact RecordSet.ofText_object (Record.backdate_fits hnow hfits hbackdate)
        (Record.backdate_withoutFloats hf hbackdate)

/-- One record with metadata and one without. -/
def pair : List Record :=
  [[("_aws", .object [("Timestamp", .number (.int 1)), ("Unit", .string "é")]),
      ("x", .number (.int (-5)))],
    [("y", .null)]]

def pairFile : Disk := fun _ => .ok (Json.array (pair.map .object)).text.toUTF8

theorem datable_pair : ∀ r ∈ pair, r.Datable := by
  simp [pair, Record.Datable, metadataKey, List.lookup_cons]

theorem withoutFloats_pair : ∀ r ∈ pair, (Json.object r).WithoutFloats := by decide

theorem load_pairFile : RecordSet.load pairFile "pair.json" = .ok pair :=
  RecordSet.load_array (by decide) withoutFloats_pair rfl

theorem run_delivers_pair :
    ∃ events, (run pairFile "pair.json" ⟨"group", "stream"⟩ FixedAnswer.accepting.sink
        ⟨fun k => Int64.ofNat (5000 + k), 0⟩).calls = [⟨⟨"group", "stream"⟩, events⟩] ∧
      events.length = 2 ∧
      ∀ (i : Nat) (r : Record) (event : Event), pair[i]? = some r → events[i]? = some event →
        event.timestamp = Int64.ofNat (5000 + (0 + (i + 1))) ∧
        ∃ sent, Record.Dated 4000 r sent ∧ event = Event.ofRecord sent event.timestamp ∧
          RecordSet.ofText event.message = .ok [sent] := by
  have hnow : Int64.minValue.toInt + 1000 ≤
      (Clock.now ⟨fun k => Int64.ofNat (5000 + k), 0⟩).toInt := by decide
  obtain ⟨events, hcalls, _, hlength, hevents⟩ :=
    run_delivers hnow load_pairFile datable_pair ⟨"group", "stream"⟩ FixedAnswer.accepting.sink
  refine ⟨events, hcalls, hlength, ?_⟩
  intro i r event hr hevent
  obtain ⟨htime, sent, hdated, hmade, hread⟩ := hevents i r event hr hevent
  exact ⟨htime, sent, hdated, hmade, hread (withoutFloats_pair r (List.mem_of_getElem? hr))⟩

end Upload

end MetricUpload
