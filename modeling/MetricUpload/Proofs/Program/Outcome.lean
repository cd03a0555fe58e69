import MetricUpload.Proofs.CommandLine.Contents
import MetricUpload.Proofs.Service.Answer
import MetricUpload.Proofs.Upload.Delivery
import MetricUpload.Program

namespace MetricUpload

theorem isBlankText_eq_true_iff {text : String} :
    isBlankText text = true ↔ ∀ c ∈ text.toList, isSpace c = true := by
  simp [isBlankText]

namespace Settings

variable {s : Settings} {p : Parameter}

/-- The parameter was given, and nothing but white space. -/
def BlankAt (s : Settings) (p : Parameter) : Prop :=
  ∃ value, s.value? p = some value ∧ ∀ c ∈ value.toList, isSpace c = true

/-- The parameter is blank, and those that are looked at before it are not. -/
def FirstBlank (s : Settings) (p : Parameter) : Prop :=
  s.BlankAt p ∧ ∃ before after, Parameter.all = before ++ p :: after ∧ ∀ q ∈ before, ¬s.BlankAt q

theorem blankAt_iff : s.BlankAt p ↔ (s.value? p).any isBlankText = true := by
  simp only [Option.any_eq_true, isBlankText_eq_true_iff, BlankAt]

theorem check_of_firstBlank (h : s.FirstBlank p) : s.check = .error ⟨p⟩ := by
  obtain ⟨hblank, before, after, hall, hbefore⟩ := h
  have hfind : Parameter.all.find? (fun p => (s.value? p).any isBlankText) = some p := by
    refine List.find?_eq_some_iff_append.mpr ⟨blankAt_iff.mp hblank, before, after, hall, ?_⟩
    intro q hq
    have hvisible := hbefore q hq
    rw [blankAt_iff, Bool.not_eq_true] at hvisible
    rw [hvisible]
    rfl
  simp only [check, hfind]

theorem check_of_visible (h : ∀ p, ¬s.FirstBlank p) : s.check = .ok s := by
  cases hfind : Parameter.all.find? (fun p => (s.value? p).any isBlankText) with
  | none => simp only [check, hfind]
  | some p =>
    obtain ⟨hblank, before, after, hall, hbefore⟩ := List.find?_eq_some_iff_append.mp hfind
    refine absurd ⟨blankAt_iff.mpr hblank, before, after, hall, ?_⟩ (h p)
    intro q hq
    have hvisible := hbefore q hq
    rw [Bool.not_eq_true'] at hvisible
    rw [blankAt_iff, hvisible]
    exact Bool.false_ne_true

end Settings

namespace Upload

/-- The file loads, and the metadata of each of its records is absent or an object. -/
def Deliverable (disk : Disk) (path : String) : Prop :=
  ∃ records, RecordSet.load disk path = .ok records ∧ ∀ r ∈ records, r.Datable

section

variable {disk : Disk} {path : String}

theorem sends_of_deliverable (h : Deliverable disk path) (target : Target) (sink : Sink)
    (clock : Clock) :
    ∃ records dated, RecordSet.load disk path = .ok records ∧
      (RecordSet.backdate clock.now records).2 = .ok dated ∧
      (run disk path target sink clock).calls =
        [⟨target, (Event.ofRecords clock.tick dated).1⟩] ∧
      (run disk path target sink clock).result =
        sink target (Event.ofRecords clock.tick dated).1 := by
  obtain ⟨records, loaded, datable⟩ := h
  obtain ⟨dated, hdated⟩ : ∃ dated, (RecordSet.backdate clock.now records).2 = .ok dated :=
    RecordSet.exists_backdate_iff.mpr datable
  exact ⟨records, dated, loaded, hdated, run_of_backdate loaded hdated target sink⟩

theorem fails_of_not_deliverable (h : ¬Deliverable disk path) (target : Target) (sink : Sink)
    (clock : Clock) :
    (run disk path target sink clock).calls = [] ∧
      ∃ e, (run disk path target sink clock).result = .error e := by
  cases loaded : RecordSet.load disk path with
  | error e =>
    rw [run_of_load_error loaded]
    exact ⟨rfl, e, rfl⟩
  | ok records =>
    cases hdated : (RecordSet.backdate clock.now records).2 with
    | error e =>
      obtain ⟨hresult, hcalls, _⟩ := run_of_backdate_error loaded hdated target sink
      exact ⟨hcalls, e, hresult⟩
    | ok dated =>
      exact absurd ⟨records, loaded, RecordSet.exists_backdate_iff.mp ⟨dated, hdated⟩⟩ h

end

end Upload

namespace Outcome

theorem ofUpload_of_ok {service : Service} {u : Upload} {summary : Summary}
    (h : u.result = .ok summary) :
    ofUpload service u = ⟨0, "", "", u.log, service.requests u.calls⟩ := by
  simp only [ofUpload, h, success]

theorem ofUpload_of_error {service : Service} {u : Upload} {e : UploadError}
    (h : u.result = .error e) :
    ofUpload service u =
      ⟨1, "", "Error: " ++ e.message, u.log, service.requests u.calls⟩ := by
  simp only [ofUpload, h, failure, errorText]

theorem ofUpload_requests (status : Int) (body account : String) (u : Upload) :
    (ofUpload (.reply status body account) u).requests = u.calls := by
  cases h : u.result with
  | ok summary => rw [ofUpload_of_ok h, Service.requests_reply]
  | error e => rw [ofUpload_of_error h, Service.requests_reply]

theorem ofUpload_exit_iff {service : Service} {u : Upload} :
    (ofUpload service u).exit = 0 ↔ ∃ summary, u.result = .ok summary := by
  cases h : u.result with
  | ok summary =>
    rw [ofUpload_of_ok h]
    exact iff_of_true rfl ⟨summary, rfl⟩
  | error e =>
    rw [ofUpload_of_error h]
    exact iff_of_false nofun nofun

theorem ofUpload_of_failure {service : Service} {u : Upload}
    (h : (ofUpload service u).exit ≠ 0) :
    (ofUpload service u).exit = 1 ∧ ∃ e, u.result = .error e ∧
      (ofUpload service u).stderr = "Error: " ++ e.message := by
  cases hresult : u.result with
  | ok summary => exact absurd (ofUpload_exit_iff.mpr ⟨summary, hresult⟩) h
  | error e =>
    rw [ofUpload_of_error hresult]
    exact ⟨rfl, e, rfl, rfl⟩

end Outcome

namespace Program

section

variable {arguments : List String} {s : Settings}

theorem run_of_stop {stop : CommandStop} (h : CommandLine.parse arguments = .error stop)
    (disk : Disk) (clock : Clock) (service : Service) :
    run arguments disk clock service = .ofStop stop := by
  have hsettings : settings arguments = .error (.ofStop stop) := by
    rw [settings, h]
    rfl
  rw [run, hsettings]

theorem run_of_firstBlank {p : Parameter} (h : CommandLine.parse arguments = .ok s)
    (blank : s.FirstBlank p) (disk : Disk) (clock : Clock) (service : Service) :
    run arguments disk clock service = .ofBlank ⟨p⟩ := by
  have hsettings : settings arguments = .error (.ofBlank ⟨p⟩) := by
    rw [settings, h]
    show s.check.mapError Outcome.ofBlank = .error (Outcome.ofBlank ⟨p⟩)
    rw [Settings.check_of_firstBlank blank]
    rfl
  rw [run, hsettings]

theorem run_of_visible (h : CommandLine.parse arguments = .ok s)
    (visible : ∀ p, ¬s.FirstBlank p) (disk : Disk) (clock : Clock) (service : Service) :
    run arguments disk clock service =
      .ofUpload service (Upload.run disk s.file s.target service.sink clock) := by
  have hsettings : settings arguments = .ok s :=
    bind_eq_ok_iff.mpr ⟨s, mapError_eq_ok_iff.mpr h,
      mapError_eq_ok_iff.mpr (Settings.check_of_visible visible)⟩
  rw [run, hsettings]

end

/-- What a run on settings without a blank leaves behind where the service replies: one request with
all events, or none, and an exit code that tells whether a request succeeded. -/
structure IsUploadOutcome (s : Settings) (disk : Disk) (clock : Clock) (status : Int)
    (body account : String) (outcome : Outcome) : Prop where
  once : outcome.requests.length ≤ 1
  sends : outcome.requests.length = 1 ↔ Upload.Deliverable disk s.file
  carries : ∀ records request, RecordSet.load disk s.file = .ok records →
    request ∈ outcome.requests →
      request.target = s.target ∧ request.events.length = records.length ∧
      ∀ (i : Nat) (r : Record) (event : Event), records[i]? = some r →
        request.events[i]? = some event →
          ∃ sent, Record.Dated (clock.now.toInt - 1000) r sent ∧
            event = Event.ofRecord sent (clock.reading (clock.taken + (i + 1)))
  succeeds : outcome.exit = 0 ↔ outcome.requests.length = 1 ∧ Service.Succeeds status body
  fails : outcome.exit ≠ 0 → outcome.exit = 1 ∧ ∃ e,
    (Upload.run disk s.file s.target (Service.reply status body account).sink clock).result =
      .error e ∧ outcome.stderr = "Error: " ++ e.message

theorem isUploadOutcome_ofUpload (s : Settings) (disk : Disk) (clock : Clock) (status : Int)
    (body account : String) :
    IsUploadOutcome s disk clock status body account (.ofUpload (.reply status body account)
      (Upload.run disk s.file s.target (Service.reply status body account).sink clock)) := by
  have hrequests := Outcome.ofUpload_requests status body account
    (Upload.run disk s.file s.target (Service.reply status body account).sink clock)
  by_cases hdeliverable : Upload.Deliverable disk s.file
  · obtain ⟨records, dated, loaded, hdated, hcalls, hresult⟩ :=
      Upload.sends_of_deliverable hdeliverable s.target (Service.reply status body account).sink clock
    rw [hcalls] at hrequests
    have hone := congrArg List.length hrequests
    refine ⟨Nat.le_of_eq hone, iff_of_true hone hdeliverable, ?_, ?_,
      Outcome.ofUpload_of_failure⟩
    · intro others request hothers hrequest
      rw [loaded] at hothers
      cases hothers
      rw [hrequests] at hrequest
      cases List.mem_singleton.mp hrequest
      refine ⟨rfl, ?_, ?_⟩
      · rw [Event.ofRecords_length, RecordSet.length_of_backdate hdated]
      · intro i r event hr hevent
        have hplace : clock.tick.taken + i = clock.taken + (i + 1) := by
          simp only [Clock.tick]
          omega
        rw [← hplace]
        exact Event.exists_dated_of_event hdated hr hevent
    · rw [Outcome.ofUpload_exit_iff, hresult, Service.exists_sink_iff,
        Service.exists_rejected?_iff]
      exact (and_iff_right hone).symm
  · obtain ⟨hcalls, e, hresult⟩ := Upload.fails_of_not_deliverable hdeliverable s.target
      (Service.reply status body account).sink clock
    rw [hcalls] at hrequests
    have hnone : (Outcome.ofUpload (.reply status body account) (Upload.run disk s.file s.target
        (Service.reply status body account).sink clock)).requests.length ≠ 1 := by
      rw [hrequests]
      exact Nat.zero_ne_one
    have hfailed : ¬∃ summary, (Upload.run disk s.file s.target
        (Service.reply status body account).sink clock).result = .ok summary := by
      rintro ⟨summary, h⟩
      rw [hresult] at h
      cases h
    refine ⟨?_, iff_of_false hnone hdeliverable, ?_, ?_, Outcome.ofUpload_of_failure⟩
    · rw [hrequests]
      exact Nat.zero_le 1
    · intro records request _ hrequest
      rw [hrequests] at hrequest
      cases hrequest
    · rw [Outcome.ofUpload_exit_iff]
      exact iff_of_false hfailed fun h => hnone h.1

/-- Help, misuse and a blank parameter end a run before anything but its arguments counts. Any other
run uploads, and its exit code tells whether that was a success. -/
theorem run_outcome (arguments : List String) :
    (∀ h, CommandLine.parse arguments = .error (.help h) →
      ∀ disk clock service, run arguments disk clock service = ⟨0, h.text, "", [], []⟩) ∧
    (∀ fault, CommandLine.parse arguments = .error (.fault fault) →
      ∀ disk clock service, run arguments disk clock service = ⟨2, "", "", [], []⟩) ∧
    ∀ s, CommandLine.parse arguments = .ok s →
      (∀ p, s.FirstBlank p → ∀ disk clock service,
        run arguments disk clock service =
          ⟨1, "", "Error: " ++ (p.flag ++ " must not be empty"), [], []⟩) ∧
      ((∀ p, ¬s.FirstBlank p) → ∀ disk clock status body account,
        IsUploadOutcome s disk clock status body account
          (run arguments disk clock (.reply status body account))) := by
  refine ⟨fun h hparse => run_of_stop hparse, fun fault hparse => run_of_stop hparse, ?_⟩
  intro s hparse
  refine ⟨fun p blank => run_of_firstBlank hparse blank, ?_⟩
  intro visible disk clock status body account
  rw [run_of_visible hparse visible]
  exact isUploadOutcome_ofUpload s disk clock status body account

theorem run_outcome_small :
    (∀ disk clock service, run ["-h"] disk clock service = ⟨0, Help.short.text, "", [], []⟩) ∧
      (∀ disk clock service, run ["--region"] disk clock service = ⟨2, "", "", [], []⟩) ∧
      (∀ disk clock service, run ["--region=", "--log-group=g", "--log-stream=\t", "f"] disk clock
        service = ⟨1, "", "Error: --log-stream must not be empty", [], []⟩) ∧
      ∀ clock,
        (run ["--log-group=g", "--log-stream= s", "pair.json"] Upload.pairFile clock
          (.reply 200 "")).exit = 0 ∧
        (run ["--log-group=g", "--log-stream= s", "pair.json"] Upload.pairFile clock
          (.reply 400 "")).exit = 1 := by
  refine ⟨(run_outcome _).1 .short rfl, (run_outcome _).2.1 (.noValue (.parameter .region)) rfl,
    ?_, ?_⟩
  · have blank : Settings.FirstBlank ⟨"f", ⟨"g", "\t"⟩, some ""⟩ .logStream := by
      refine ⟨⟨"\t", rfl, isBlankText_eq_true_iff.mp rfl⟩, [.logGroup], [.region], rfl, ?_⟩
      intro q hq
      cases List.mem_singleton.mp hq
      rw [Settings.blankAt_iff]
      decide
    exact ((run_outcome _).2.2 _ rfl).1 .logStream blank
  · intro clock
    have visible : ∀ p, ¬Settings.FirstBlank ⟨"pair.json", ⟨"g", " s"⟩, none⟩ p := by
      intro p h
      have hblank := Settings.blankAt_iff.mp h.1
      cases p <;> revert hblank <;> decide
    have houtcome := ((run_outcome ["--log-group=g", "--log-stream= s", "pair.json"]).2.2 _ rfl).2
      visible Upload.pairFile clock
    have deliverable : Upload.Deliverable Upload.pairFile "pair.json" :=
      ⟨Upload.pair, Upload.load_pairFile, Upload.datable_pair⟩
    refine ⟨?_, ?_⟩
    · have h := houtcome 200 "" ""
      exact h.succeeds.mpr ⟨h.sends.mpr deliverable, by decide, by decide, Rejected.none, rfl⟩
    · have h := houtcome 400 "" ""
      refine (h.fails fun hexit => ?_).1
      obtain ⟨_, _, hless, _⟩ := h.succeeds.mp hexit
      omega

end Program

end MetricUpload
