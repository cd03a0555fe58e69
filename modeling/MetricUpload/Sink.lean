import MetricUpload.Event
import MetricUpload.Target
import MetricUpload.UploadError

namespace MetricUpload

/-- One delivery of a batch of events. -/
structure Call where
  target : Target
  events : List Event
  deriving DecidableEq

/-- What takes a batch of events in a single call. -/
abbrev Sink := Target → List Event → Except UploadError Summary

/-- A sink that gives every call the same answer. -/
structure FixedAnswer where
  refusal : Option String
  rejected : Rejected

namespace FixedAnswer

def accepting : FixedAnswer := ⟨none, Rejected.none⟩

def sink (answer : FixedAnswer) : Sink := fun _ events =>
  match answer.refusal with
  | some text => .error (.refused text)
  | none => .ok ⟨events.length, answer.rejected⟩

end FixedAnswer

end MetricUpload
