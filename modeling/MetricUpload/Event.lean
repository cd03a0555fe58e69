import MetricUpload.Clock
import MetricUpload.Record
import MetricUpload.Json.Writer

namespace MetricUpload

/-- A record as it is sent: its compact text, and a time of its own in milliseconds. -/
structure Event where
  message : String
  timestamp : Int64
  deriving DecidableEq

namespace Event

def ofRecord (r : Record) (timestamp : Int64) : Event := ⟨(Json.object r).text, timestamp⟩

/-- One event a record, in their order, each with the next reading of the clock. -/
def ofRecords : Clock → List Record → List Event × Clock
  | clock, [] => ([], clock)
  | clock, r :: records =>
    let (events, last) := ofRecords clock.tick records
    (ofRecord r clock.now :: events, last)

end Event

end MetricUpload
