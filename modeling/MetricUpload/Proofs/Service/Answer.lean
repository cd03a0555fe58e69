import MetricUpload.Service

namespace MetricUpload

namespace LogEntry

/-- An event has both parts of an entry. -/
theorem mapM_ofEvent (account : String) (events : List Event) :
    events.mapM (ofEvent account) =
      .ok (events.map fun event => ⟨event.message, event.timestamp⟩) := by
  induction events with
  | nil => rfl
  | cons event events ih =>
    rw [List.mapM_cons, ih]
    rfl

end LogEntry

/-- The request that holds an entry for each of the events. -/
def Request.carrying (target : Target) (events : List Event) : Request :=
  ⟨target.logGroup, target.logStream, events.map fun event => ⟨event.message, event.timestamp⟩⟩

theorem Request.call_carrying (target : Target) (events : List Event) :
    (carrying target events).call = ⟨target, events⟩ := by
  have hevents : (events.map fun event => LogEntry.mk event.message event.timestamp).map
      LogEntry.event = events := by
    rw [List.map_map]
    exact List.map_id events
  simp only [call, carrying, hevents]

namespace Service

theorem isSuccess_iff {status : Int} : isSuccess status = true ↔ 200 ≤ status ∧ status < 300 := by
  simp only [isSuccess, Bool.and_eq_true, decide_eq_true_eq]

section

variable (service : Service) (target : Target) (events : List Event)

/-- No event is held back, so what comes of a delivery is up to the service. -/
theorem deliver_eq : service.deliver target events =
    { requests := service.receive (.carrying target events)
      result :=
        match service.rejected? with
        | some rejected => .ok ⟨events.length, rejected⟩
        | none => .error (.refused service.account) } := by
  simp only [deliver, LogEntry.mapM_ofEvent]
  rfl

variable {service} in
theorem result_of_rejected? {rejected : Rejected} (h : service.rejected? = some rejected) :
    (service.deliver target events).result = .ok ⟨events.length, rejected⟩ := by
  simp only [deliver_eq, h]

variable {service} in
theorem result_of_refusal (h : service.rejected? = none) :
    (service.deliver target events).result = .error (.refused service.account) := by
  simp only [deliver_eq, h]

variable {service target events} in
theorem exists_sink_iff : (∃ summary, service.sink target events = .ok summary) ↔
    ∃ rejected, service.rejected? = some rejected := by
  cases h : service.rejected? with
  | none =>
    refine iff_of_false ?_ nofun
    rintro ⟨summary, hsink⟩
    cases hsink.symm.trans (result_of_refusal target events h)
  | some rejected => exact iff_of_true ⟨_, result_of_rejected? target events h⟩ ⟨rejected, rfl⟩

end

section

variable {status : Int} {body account : String}

theorem requests_reply (calls : List Call) : (reply status body account).requests calls = calls := by
  induction calls with
  | nil => rfl
  | cons call calls ih =>
    simp only [requests, deliver_eq, receive, List.flatMap_cons, List.map_singleton,
      Request.call_carrying, List.singleton_append] at ih ⊢
    rw [ih]

theorem rejected?_of_success (h : 200 ≤ status ∧ status < 300) :
    (reply status body account).rejected? = Reply.rejected? body := by
  simp only [rejected?, isSuccess_iff.mpr h, ↓reduceIte]

theorem rejected?_of_status (h : ¬(200 ≤ status ∧ status < 300)) :
    (reply status body account).rejected? = none := by
  rw [← isSuccess_iff] at h
  simp only [rejected?, h, Bool.false_eq_true, ↓reduceIte]

/-- A status of success and a body that can be read, whatever rejections it reports. -/
def Succeeds (status : Int) (body : String) : Prop :=
  200 ≤ status ∧ status < 300 ∧ ∃ rejected, Reply.rejected? body = some rejected

theorem exists_rejected?_iff :
    (∃ rejected, (reply status body account).rejected? = some rejected) ↔ Succeeds status body := by
  by_cases h : 200 ≤ status ∧ status < 300
  · rw [rejected?_of_success h]
    exact ⟨fun hread => ⟨h.1, h.2, hread⟩, fun hsucceeds => hsucceeds.2.2⟩
  · rw [rejected?_of_status h]
    exact iff_of_false nofun fun hsucceeds => h ⟨hsucceeds.1, hsucceeds.2.1⟩

end

end Service

end MetricUpload
