import MetricUpload.Upload

namespace MetricUpload

namespace Effect

/-- Lines alone are the log that they make, and call nothing. -/
theorem lines_noted (log : List LogLine) : (log.map noted).filterMap line? = log := by
  rw [List.filterMap_map]
  exact List.filterMap_some

theorem calls_noted (log : List LogLine) : (log.map noted).filterMap call? = [] := by
  rw [List.filterMap_map]
  exact List.filterMap_eq_nil_iff.mpr fun _ _ => rfl

end Effect

namespace Upload

variable (log : List LogLine) (u : Upload) (target : Target) (sink : Sink) (clock : Clock)
  (events : List Event) (e : UploadError)

@[simp] theorem result_after : (u.after log).result = u.result := rfl

@[simp] theorem clock_after : (u.after log).clock = u.clock := rfl

@[simp] theorem log_after : (u.after log).log = log ++ u.log := by
  simp only [Upload.log, after, List.filterMap_append, Effect.lines_noted]

@[simp] theorem calls_after : (u.after log).calls = u.calls := by
  simp only [calls, after, List.filterMap_append, Effect.calls_noted, List.nil_append]

@[simp] theorem result_failed : (failed clock e).result = .error e := rfl

@[simp] theorem clock_failed : (failed clock e).clock = clock := rfl

@[simp] theorem log_failed : (failed clock e).log = [] := rfl

@[simp] theorem calls_failed : (failed clock e).calls = [] := rfl

@[simp] theorem result_send : (send target sink clock events).result = sink target events := rfl

@[simp] theorem clock_send : (send target sink clock events).clock = clock := rfl

@[simp] theorem log_send : (send target sink clock events).log =
    .uploading events.length target :: outcomeLog (sink target events) := by
  simp only [Upload.log, send, List.filterMap_cons, Effect.line?, Effect.lines_noted]

@[simp] theorem calls_send : (send target sink clock events).calls = [⟨target, events⟩] := by
  simp only [calls, send, List.filterMap_cons, Effect.call?, Effect.calls_noted]

end Upload

end MetricUpload
