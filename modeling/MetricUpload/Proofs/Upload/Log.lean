import MetricUpload.Proofs.Upload.Delivery

namespace MetricUpload

namespace LogLine

/-- The lines with which a sink's success is told. -/
inductive IsVerdict : LogLine → Prop
  | accepted (events : Nat) : IsVerdict (.accepted events)
  | rejected (events : Nat) (rejected : Rejected) : IsVerdict (.rejected events rejected)

end LogLine

namespace RecordSet

/-- One line for each of the records without metadata. -/
def remarks (records : List Record) : List LogLine :=
  (records.filter fun r => metadataKey ∉ Fields.keys r).map fun _ => .withoutMetadata

theorem remarks_cons (r : Record) (records : List Record) :
    remarks (r :: records) = backdateLog r ++ remarks records := by
  cases hm : r.lookup metadataKey with
  | none =>
    have habsent := Fields.lookup_eq_none_iff.mp hm
    simp [remarks, backdateLog, hm, habsent]
  | some v =>
    have hpresent : metadataKey ∈ Fields.keys r := List.mem_map_of_mem (Fields.mem_of_lookup hm)
    simp [remarks, backdateLog, hm, hpresent]

theorem mem_remarks {records : List Record} {line : LogLine} (h : line ∈ remarks records) :
    line = .withoutMetadata := by
  obtain ⟨r, _, rfl⟩ := List.mem_map.mp h
  rfl

/-- Records that can be dated leave their remarks, and then comes what the others leave. -/
theorem backdateFrom_log_append {before : List Record} (h : ∀ r ∈ before, r.Datable) (now : Int64)
    (start : Nat) (rest : List Record) :
    (backdateFrom now start (before ++ rest)).1 =
      remarks before ++ (backdateFrom now (start + before.length) rest).1 := by
  induction before generalizing start with
  | nil => rfl
  | cons r before ih =>
    obtain ⟨hr, hbefore⟩ := List.forall_mem_cons.mp h
    obtain ⟨dated, hdated⟩ : ∃ dated, r.backdate now = .ok dated := Record.exists_backdate_iff.mpr hr
    have hplace : start + 1 + before.length = start + (before.length + 1) := by omega
    simp only [List.cons_append, backdateFrom, hdated, ih hbefore, remarks_cons, List.append_assoc,
      List.length_cons, hplace]

theorem backdate_log {records : List Record} (h : ∀ r ∈ records, r.Datable) (now : Int64) :
    (backdate now records).1 = remarks records := by
  show (backdateFrom now 0 records).1 = remarks records
  have hlog := backdateFrom_log_append h now 0 []
  simpa only [backdateFrom, List.append_nil] using hlog

theorem FirstUndatable.eq_append {records : List Record} {index : Nat} {kind : Kind}
    (h : FirstUndatable records index kind) :
    ∃ offender rest, records = records.take index ++ offender :: rest ∧ offender.Undatable kind ∧
      ∀ r ∈ records.take index, r.Datable := by
  obtain ⟨offender, hoffender, hkind, hbefore⟩ := h
  obtain ⟨hi, rfl⟩ := List.getElem?_eq_some_iff.mp hoffender
  refine ⟨_, records.drop (index + 1), ?_, hkind, ?_⟩
  · rw [← List.drop_eq_getElem_cons hi, List.take_append_drop]
  · intro r hr
    obtain ⟨j, hj, rfl⟩ := List.mem_take_iff_getElem.mp hr
    exact hbefore j (by omega) _ (List.getElem?_eq_getElem (by omega))

theorem backdate_log_of_firstUndatable {records : List Record} {index : Nat} {kind : Kind}
    (h : FirstUndatable records index kind) (now : Int64) :
    (backdate now records).1 = remarks (records.take index) := by
  obtain ⟨offender, rest, hrecords, hkind, hbefore⟩ := h.eq_append
  show (backdateFrom now 0 records).1 = remarks (records.take index)
  have hlog := backdateFrom_log_append hbefore now 0 (offender :: rest)
  rw [← hrecords] at hlog
  simpa only [backdateFrom, Record.backdate_of_undatable hkind, List.append_nil] using hlog

end RecordSet

namespace Upload

/-- The lines that follow an answer of the sink. -/
inductive Closing : Except UploadError Summary → List LogLine → Prop
  | accepted {summary : Summary} (new : summary.rejected.tooNewStart = none)
      (old : summary.rejected.tooOldEnd = none) (expired : summary.rejected.expiredEnd = none) :
      Closing (.ok summary) [.accepted summary.events]
  | rejected {summary : Summary} (some : summary.rejected ≠ Rejected.none) :
      Closing (.ok summary) [.rejected summary.events summary.rejected]
  | failed (e : UploadError) : Closing (.error e) []

theorem closing_outcomeLog (answer : Except UploadError Summary) :
    Closing answer (outcomeLog answer) := by
  cases answer with
  | error e => exact .failed e
  | ok summary =>
    cases hempty : summary.rejected.isEmpty with
    | true =>
      simp only [outcomeLog, hempty, ↓reduceIte]
      simp only [Rejected.isEmpty, Bool.and_eq_true, Option.isNone_iff_eq_none] at hempty
      exact .accepted hempty.1.1 hempty.1.2 hempty.2
    | false =>
      simp only [outcomeLog, hempty, Bool.false_eq_true, ↓reduceIte]
      refine .rejected fun h => ?_
      rw [h] at hempty
      cases hempty

theorem Closing.getLast?_iff {answer : Except UploadError Summary} {closing : List LogLine}
    (h : Closing answer closing) {before : List LogLine}
    (hbefore : ∀ line ∈ before, ¬line.IsVerdict) :
    (∃ summary, answer = .ok summary) ↔
      ∃ line, (before ++ closing).getLast? = some line ∧ line.IsVerdict := by
  cases h with
  | accepted => exact iff_of_true ⟨_, rfl⟩ ⟨_, List.getLast?_concat, .accepted _⟩
  | rejected => exact iff_of_true ⟨_, rfl⟩ ⟨_, List.getLast?_concat, .rejected _ _⟩
  | failed e =>
    refine iff_of_false nofun ?_
    rintro ⟨line, hline, hverdict⟩
    rw [List.append_nil] at hline
    exact hbefore line (List.mem_of_getLast? hline) hverdict

/-- What is written before the sink is called, or instead of it. -/
def preamble (path : String) (count : Nat) (remarked : List Record) : List LogLine :=
  .loaded path count :: RecordSet.remarks remarked

theorem mem_preamble {path : String} {count : Nat} {remarked : List Record} {line : LogLine}
    (h : line ∈ preamble path count remarked) :
    ¬line.IsVerdict ∧ ∀ events target, line ≠ .uploading events target := by
  rcases List.mem_cons.mp h with rfl | h
  · exact ⟨nofun, nofun⟩
  · rw [RecordSet.mem_remarks h]
    exact ⟨nofun, nofun⟩

section

variable {disk : Disk} {path : String} {clock : Clock} {records : List Record}

theorem effects_of_backdate {dated : List Record} (loaded : RecordSet.load disk path = .ok records)
    (hdated : (RecordSet.backdate clock.now records).2 = .ok dated) (target : Target) (sink : Sink) :
    (run disk path target sink clock).effects =
      (LogLine.loaded path records.length :: (RecordSet.backdate clock.now records).1).map .noted ++
        .noted (.uploading records.length target) ::
        .called ⟨target, (Event.ofRecords clock.tick dated).1⟩ ::
          (outcomeLog (sink target (Event.ofRecords clock.tick dated).1)).map .noted := by
  simp only [run, loaded, RecordSet.loadLog, hdated, after, send, Event.ofRecords_length,
    RecordSet.length_of_backdate hdated, List.map_cons, List.map_nil, List.cons_append,
    List.nil_append]

theorem log_of_backdate_error {e : UploadError} (loaded : RecordSet.load disk path = .ok records)
    (hdated : (RecordSet.backdate clock.now records).2 = .error e) (target : Target) (sink : Sink) :
    (run disk path target sink clock).log =
      .loaded path records.length :: (RecordSet.backdate clock.now records).1 := by
  simp only [run, loaded, RecordSet.loadLog, hdated, log_after, log_failed, List.singleton_append,
    List.append_nil]

/-- The log is what is left of the effects without the call. -/
theorem log_of_effects {u : Upload} {before closing : List LogLine} {line : LogLine} {call : Call}
    (h : u.effects = before.map .noted ++ .noted line :: .called call :: closing.map .noted) :
    u.log = before ++ line :: closing := by
  simp only [Upload.log, h, List.filterMap_append, List.filterMap_cons, Effect.line?,
    Effect.lines_noted]

theorem log_of_datable (loaded : RecordSet.load disk path = .ok records)
    (datable : ∀ r ∈ records, r.Datable) (target : Target) (clock : Clock) :
    ∃ events : List Event, events.length = records.length ∧ ∀ sink,
      (run disk path target sink clock).calls = [⟨target, events⟩] ∧
      (run disk path target sink clock).result = sink target events ∧
      ∃ closing, Closing (sink target events) closing ∧
        (run disk path target sink clock).effects =
          (preamble path records.length records).map .noted ++
            .noted (.uploading records.length target) :: .called ⟨target, events⟩ ::
              closing.map .noted ∧
        (run disk path target sink clock).log =
          preamble path records.length records ++ .uploading records.length target :: closing := by
  obtain ⟨dated, hdated⟩ : ∃ dated, (RecordSet.backdate clock.now records).2 = .ok dated :=
    RecordSet.exists_backdate_iff.mpr datable
  refine ⟨(Event.ofRecords clock.tick dated).1, ?_, fun sink => ?_⟩
  · rw [Event.ofRecords_length, RecordSet.length_of_backdate hdated]
  · obtain ⟨hcalls, hresult⟩ := run_of_backdate loaded hdated target sink
    have heffects := effects_of_backdate loaded hdated target sink
    rw [RecordSet.backdate_log datable] at heffects
    exact ⟨hcalls, hresult, _, closing_outcomeLog _, heffects, log_of_effects heffects⟩

theorem log_of_firstUndatable {index : Nat} {kind : Kind}
    (loaded : RecordSet.load disk path = .ok records)
    (h : RecordSet.FirstUndatable records index kind) (target : Target) (sink : Sink) :
    (run disk path target sink clock).log = preamble path records.length (records.take index) := by
  rw [log_of_backdate_error loaded (RecordSet.backdate_of_firstUndatable h clock.now),
    RecordSet.backdate_log_of_firstUndatable h]
  rfl

end

/-- The log tells how far a run came: what was loaded, each record without metadata up to the one that
could not be dated, the upload before the sink is called, and the answer if it was a success. -/
theorem run_log (disk : Disk) (path : String) (target : Target) (clock : Clock) :
    (∀ e, RecordSet.load disk path = .error e →
      ∀ sink, (run disk path target sink clock).log = []) ∧
    (∀ records, RecordSet.load disk path = .ok records →
      (∀ index kind, RecordSet.FirstUndatable records index kind → ∀ sink,
        (run disk path target sink clock).log =
          preamble path records.length (records.take index)) ∧
      ((∀ r ∈ records, r.Datable) →
        ∃ events : List Event, events.length = records.length ∧ ∀ sink,
          (run disk path target sink clock).calls = [⟨target, events⟩] ∧
          (run disk path target sink clock).result = sink target events ∧
          ∃ closing, Closing (sink target events) closing ∧
            (run disk path target sink clock).effects =
              (preamble path records.length records).map .noted ++
                .noted (.uploading records.length target) :: .called ⟨target, events⟩ ::
                  closing.map .noted ∧
            (run disk path target sink clock).log = preamble path records.length records ++
              .uploading records.length target :: closing)) ∧
    ∀ sink,
      ((∃ summary, (run disk path target sink clock).result = .ok summary) ↔
        ∃ line, (run disk path target sink clock).log.getLast? = some line ∧ line.IsVerdict) ∧
      ((run disk path target sink clock).calls ≠ [] ↔
        ∃ count receiver,
          LogLine.uploading count receiver ∈ (run disk path target sink clock).log) := by
  refine ⟨fun e loaded sink => ?_, fun records loaded => ⟨fun index kind h sink => ?_,
    fun datable => log_of_datable loaded datable target clock⟩, fun sink => ?_⟩
  · rw [run_of_load_error loaded]
    rfl
  · exact log_of_firstUndatable loaded h target sink
  · cases loaded : RecordSet.load disk path with
    | error e =>
      rw [run_of_load_error loaded]
      refine ⟨iff_of_false nofun ?_, iff_of_false (fun h => h rfl) nofun⟩
      rintro ⟨line, hline, _⟩
      cases hline
    | ok records =>
      rcases RecordSet.datable_or_firstUndatable records with datable | ⟨index, kind, h⟩
      · obtain ⟨events, _, hrun⟩ := log_of_datable loaded datable target clock
        obtain ⟨hcalls, hresult, closing, hclosing, _, hlog⟩ := hrun sink
        rw [hcalls, hresult, hlog, List.append_cons]
        refine ⟨hclosing.getLast?_iff ?_, iff_of_true nofun ⟨records.length, target, ?_⟩⟩
        · intro line hline
          rcases List.mem_append.mp hline with hline | hline
          · exact (mem_preamble hline).1
          · rw [List.mem_singleton.mp hline]
            exact nofun
        · simp
      · have hundated := RecordSet.backdate_of_firstUndatable h clock.now
        obtain ⟨hresult, hcalls, _⟩ := run_of_backdate_error loaded hundated target sink
        rw [hresult, hcalls, log_of_firstUndatable loaded h target sink]
        refine ⟨iff_of_false nofun ?_, iff_of_false (fun h => h rfl) ?_⟩
        · rintro ⟨line, hline, hverdict⟩
          exact (mem_preamble (List.mem_of_getLast? hline)).1 hverdict
        · rintro ⟨events, receiver, hline⟩
          exact (mem_preamble hline).2 events receiver rfl

theorem run_log_uneven :
    (run (fun _ => .ok (Json.array (RecordSet.uneven.map .object)).text.toUTF8) "uneven.json"
      ⟨"g", "s"⟩ FixedAnswer.accepting.sink ⟨fun _ => 5000, 0⟩).log =
        [.loaded "uneven.json" 4, .withoutMetadata] ∧
    ∀ sink, (run pairFile "pair.json" ⟨"g", "s"⟩ sink ⟨fun _ => 5000, 0⟩).log.take 3 =
      [.loaded "pair.json" 2, .withoutMetadata, .uploading 2 ⟨"g", "s"⟩] := by
  have loaded : RecordSet.load (fun _ => .ok (Json.array (RecordSet.uneven.map .object)).text.toUTF8)
      "uneven.json" = .ok RecordSet.uneven := RecordSet.load_array (by decide) (by decide) rfl
  refine ⟨?_, fun sink => ?_⟩
  · rw [((run_log _ _ ⟨"g", "s"⟩ ⟨fun _ => 5000, 0⟩).2.1 _ loaded).1 2 .array
      RecordSet.firstUndatable_uneven]
    decide
  · obtain ⟨_, _, hrun⟩ :=
      ((run_log _ _ ⟨"g", "s"⟩ ⟨fun _ => 5000, 0⟩).2.1 _ load_pairFile).2 datable_pair
    obtain ⟨_, _, closing, _, _, hlog⟩ := hrun sink
    rw [hlog]
    rfl

end Upload

end MetricUpload
