import MetricUpload.Proofs.Json.Acceptance
import MetricUpload.Proofs.Upload.Delivery

namespace MetricUpload

namespace Json

/-- A text of the grammar that means something and has room for all its containers. -/
def IsDocument (text : String) : Prop :=
  ∃ d : Document, d.text = text ∧ (∃ v, d.tree.value? = some v) ∧ d.tree.depth ≤ nestingLimit

theorem isDocument_iff {text : String} : IsDocument text ↔ ∃ v, read text = .ok v := by
  constructor
  · rintro ⟨d, htext, ⟨v, hv⟩, hdepth⟩
    exact ⟨v, read_eq_ok_iff_exists.mpr ⟨d, htext, hv, hdepth⟩⟩
  · rintro ⟨v, hread⟩
    obtain ⟨d, htext, hv, hdepth⟩ := read_eq_ok_iff_exists.mp hread
    exact ⟨d, htext, ⟨v, hv⟩, hdepth⟩

end Json

namespace Record

/-- A value that holds records: an object, or an array of nothing but objects. -/
def Holds (v : Json) : Prop :=
  (∃ r, v = .object r) ∨ ∃ records : List Record, v = .array (records.map .object)

theorem holds_iff {v : Json} : Holds v ↔ ∃ records, ofJson v = .ok records := by
  constructor
  · rintro (⟨r, rfl⟩ | ⟨records, rfl⟩)
    · exact ⟨[r], rfl⟩
    · exact ⟨records, ofItems_objects 0 records⟩
  · rintro ⟨records, h⟩
    cases v with
    | object members => exact .inl ⟨members, rfl⟩
    | array items => exact .inr ⟨records, congrArg Json.array (eq_objects_of_ofItems h)⟩
    | _ => cases h

end Record

namespace Disk

variable {disk : Disk} {path : String}

theorem readText_of_fault {fault : ReadFault} (h : disk path = .error fault) :
    disk.readText path = .error fault := by
  simp only [readText, h, bind, Except.bind]

/-- A file has no content, or content that is no text, or a text. -/
theorem content_cases (disk : Disk) (path : String) :
    (∃ fault, disk path = .error fault) ∨
      (∃ content, disk path = .ok content ∧ ¬content.IsValidUTF8) ∨
        ∃ text : String, disk path = .ok text.toUTF8 := by
  cases hcontent : disk path with
  | error fault => exact .inl ⟨fault, rfl⟩
  | ok content =>
    by_cases hvalid : content.IsValidUTF8
    · exact .inr (.inr ⟨String.ofByteArray content hvalid, rfl⟩)
    · exact .inr (.inl ⟨content, rfl, hvalid⟩)

end Disk

namespace RecordSet

/-- What can become of a text: it is no document, no records, or records. -/
theorem ofText_cases (text : String) :
    (∃ fault, Json.read text = .error fault ∧ ofText text = .error (.badText fault)) ∨
      (∃ v fault, Json.read text = .ok v ∧ Record.ofJson v = .error fault ∧
        ofText text = .error (.shape fault)) ∨
      ∃ records, ofText text = .ok records := by
  cases hread : Json.read text with
  | error fault => exact .inl ⟨fault, rfl, ofText_of_fault hread⟩
  | ok v =>
    cases hv : Record.ofJson v with
    | error fault =>
      have hshape : ofText text = .error (.shape fault) := by
        rw [ofText_of_read hread, hv]
        rfl
      exact .inr (.inl ⟨v, fault, rfl, hv, hshape⟩)
    | ok records => exact .inr (.inr ⟨records, ofText_eq_ok_iff.mpr ⟨v, hread, hv⟩⟩)

end RecordSet

namespace Upload

/-- Where an upload ends: at the first stage that fails, or behind the sink. -/
inductive Ending where
  | unreadable (fault : ReadFault)
  | notJson (fault : Json.Fault)
  | notRecords (fault : ShapeFault)
  | undatable (index : Nat) (kind : Kind)
  | sent (records : List Record)

namespace Ending

/-- The error of a stage before the sink. -/
def error? (path : String) : Ending → Option UploadError
  | .unreadable fault => some (.unreadable path fault)
  | .notJson fault => some (.badFile path fault)
  | .notRecords fault => some (.shape fault)
  | .undatable index kind => some (.shape (.inRecord index (.metadata kind)))
  | .sent _ => none

/-- How often the clock has been read by then. -/
def readings : Ending → Nat
  | .unreadable _ | .notJson _ | .notRecords _ => 0
  | .undatable _ _ => 1
  | .sent records => records.length + 1

end Ending

/-- What a file is like with which an upload ends so. A stage is reached only by what has passed all
stages before it. -/
inductive Ends (disk : Disk) (path : String) : Ending → Prop
  | noContent {fault : ReadFault} (content : disk path = .error fault) :
      Ends disk path (.unreadable fault)
  | noText {content : ByteArray} (found : disk path = .ok content) (bad : ¬content.IsValidUTF8) :
      Ends disk path (.unreadable .notUtf8)
  | notJson {text : String} {fault : Json.Fault} (found : disk path = .ok text.toUTF8)
      (bad : ¬Json.IsDocument text) (parsed : RecordSet.ofText text = .error (.badText fault)) :
      Ends disk path (.notJson fault)
  | notRecords {text : String} {v : Json} {fault : ShapeFault}
      (found : disk path = .ok text.toUTF8) (read : Json.read text = .ok v) (bad : ¬Record.Holds v)
      (parsed : RecordSet.ofText text = .error (.shape fault)) :
      Ends disk path (.notRecords fault)
  | undatable {text : String} {records : List Record} {index : Nat} {kind : Kind}
      (found : disk path = .ok text.toUTF8) (parsed : RecordSet.ofText text = .ok records)
      (bad : RecordSet.FirstUndatable records index kind) : Ends disk path (.undatable index kind)
  | sent {text : String} {records : List Record} (found : disk path = .ok text.toUTF8)
      (parsed : RecordSet.ofText text = .ok records) (datable : ∀ r ∈ records, r.Datable) :
      Ends disk path (.sent records)

theorem exists_ends (disk : Disk) (path : String) : ∃ ending, Ends disk path ending := by
  rcases Disk.content_cases disk path with ⟨fault, h⟩ | ⟨content, h, bad⟩ | ⟨text, h⟩
  · exact ⟨_, .noContent h⟩
  · exact ⟨_, .noText h bad⟩
  rcases RecordSet.ofText_cases text with ⟨fault, hread, hparsed⟩ |
    ⟨v, fault, hread, hv, hparsed⟩ | ⟨records, hparsed⟩
  · have bad : ¬Json.IsDocument text := by
      intro hdocument
      obtain ⟨v, hv⟩ := Json.isDocument_iff.mp hdocument
      rw [hread] at hv
      cases hv
    exact ⟨_, .notJson h bad hparsed⟩
  · have bad : ¬Record.Holds v := by
      intro hholds
      obtain ⟨records, hrecords⟩ := Record.holds_iff.mp hholds
      rw [hv] at hrecords
      cases hrecords
    exact ⟨_, .notRecords h hread bad hparsed⟩
  · rcases RecordSet.datable_or_firstUndatable records with datable | ⟨index, kind, bad⟩
    · exact ⟨_, .sent h hparsed datable⟩
    · exact ⟨_, .undatable h hparsed bad⟩

section

variable {disk : Disk} {path : String} {ending : Ending}

theorem stops_of_ends (h : Ends disk path ending) {e : UploadError}
    (he : ending.error? path = some e) (target : Target) (sink : Sink) (clock : Clock) :
    (run disk path target sink clock).result = .error e ∧
      (run disk path target sink clock).calls = [] ∧
      (run disk path target sink clock).clock =
        { clock with taken := clock.taken + ending.readings } := by
  -- All but the last stage before the sink fail in loading, with the clock unread.
  have unloaded : ∀ {e : UploadError}, RecordSet.load disk path = .error e →
      (run disk path target sink clock).result = .error e ∧
        (run disk path target sink clock).calls = [] ∧
        (run disk path target sink clock).clock = clock := by
    intro e hload
    rw [run_of_load_error hload]
    exact ⟨rfl, rfl, rfl⟩
  cases h with
  | noContent content =>
    cases he
    exact unloaded (by simp only [RecordSet.load, Disk.readText_of_fault content])
  | noText found bad =>
    cases he
    exact unloaded (by simp only [RecordSet.load, Disk.readText_of_not_utf8 found bad])
  | notJson found _ parsed =>
    cases he
    exact unloaded (by rw [RecordSet.load_of_text (Disk.readText_of_utf8 found), parsed])
  | notRecords found _ _ parsed =>
    cases he
    exact unloaded (by rw [RecordSet.load_of_text (Disk.readText_of_utf8 found), parsed])
  | undatable found parsed bad =>
    cases he
    have hload := RecordSet.load_of_ofText found parsed
    have hundated := RecordSet.backdate_of_firstUndatable bad clock.now
    exact run_of_backdate_error hload hundated target sink
  | sent => cases he

theorem sends_of_ends {records : List Record} (h : Ends disk path (.sent records))
    (target : Target) (clock : Clock) :
    ∃ events, ∀ sink, (run disk path target sink clock).calls = [⟨target, events⟩] ∧
      (run disk path target sink clock).result = sink target events ∧
      (run disk path target sink clock).clock =
        { clock with taken := clock.taken + (records.length + 1) } := by
  cases h with
  | sent found parsed datable =>
    have hload := RecordSet.load_of_ofText found parsed
    obtain ⟨dated, hdated⟩ : ∃ dated, (RecordSet.backdate clock.now records).2 = .ok dated :=
      RecordSet.exists_backdate_iff.mpr datable
    refine ⟨(Event.ofRecords clock.tick dated).1, fun sink => ?_⟩
    obtain ⟨hcalls, hresult⟩ := run_of_backdate hload hdated target sink
    refine ⟨hcalls, hresult, ?_⟩
    simp only [run, hload, hdated, clock_after, clock_send, Event.ofRecords_clock,
      RecordSet.length_of_backdate hdated, Clock.tick]
    congr 1
    omega

end

/-- The first stage that fails decides what becomes of an upload, and keeps the sink from being
called. When none fails there is one call, of events that do not depend on the answer, and the answer
is the result. -/
theorem run_staged (disk : Disk) (path : String) (target : Target) (clock : Clock) :
    (∃ ending, Ends disk path ending) ∧
    ∀ ending, Ends disk path ending →
      (∀ e, ending.error? path = some e → ∀ sink,
        (run disk path target sink clock).result = .error e ∧
        (run disk path target sink clock).calls = []) ∧
      (ending.error? path = none → ∃ events, ∀ sink,
        (run disk path target sink clock).calls = [⟨target, events⟩] ∧
        (run disk path target sink clock).result = sink target events) ∧
      ∀ sink, (run disk path target sink clock).clock =
        { clock with taken := clock.taken + ending.readings } := by
  refine ⟨exists_ends disk path, fun ending h => ?_⟩
  cases he : ending.error? path with
  | some e =>
    have hstops := stops_of_ends h he target
    refine ⟨?_, nofun, fun sink => (hstops sink clock).2.2⟩
    intro e' he' sink
    cases he'
    exact ⟨(hstops sink clock).1, (hstops sink clock).2.1⟩
  | none =>
    cases ending with
    | sent records =>
      obtain ⟨events, hsends⟩ := sends_of_ends h target clock
      refine ⟨nofun, fun _ => ⟨events, fun sink => ?_⟩, fun sink => (hsends sink).2.2⟩
      exact ⟨(hsends sink).1, (hsends sink).2.1⟩
    | _ => cases he

/-- Two records have metadata of a wrong kind. -/
def mixed : List Record :=
  [[("_aws", .object [])], [("_aws", .null)], [("x", .array [])], [("_aws", .bool true)]]

theorem run_staged_mixed (target : Target) (clock : Clock) :
    ∀ sink, (run (fun _ => .ok (Json.array (mixed.map .object)).text.toUTF8) "mixed.json" target sink
          clock).result = .error (.shape (.inRecord 1 (.metadata .null))) ∧
      (run (fun _ => .ok (Json.array (mixed.map .object)).text.toUTF8) "mixed.json" target sink
          clock).calls = [] := by
  have parsed : RecordSet.ofText (Json.array (mixed.map .object)).text = .ok mixed :=
    RecordSet.ofText_array (by decide) (by decide)
  have bad : RecordSet.FirstUndatable mixed 1 .null := by
    refine ⟨_, rfl, ⟨.null, by simp [metadataKey], rfl, by decide⟩, ?_⟩
    intro j hj r hr
    obtain rfl : j = 0 := by omega
    cases hr
    exact fun v hv => ⟨[], by simpa [metadataKey, List.lookup_cons] using hv.symm⟩
  have hends : Ends (fun _ => .ok (Json.array (mixed.map .object)).text.toUTF8) "mixed.json"
      (.undatable 1 .null) := .undatable rfl parsed bad
  exact ((run_staged _ "mixed.json" target clock).2 _ hends).1 _ rfl

end Upload

end MetricUpload
