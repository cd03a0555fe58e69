import MetricUpload.Sink

namespace MetricUpload

/-- A message and its time as a request carries them. -/
structure LogEntry where
  message : String
  timestamp : Int64
  deriving DecidableEq

namespace LogEntry

/-- An entry that may still lack a part. -/
structure Draft where
  message : Option String
  timestamp : Option Int64

namespace Draft

def empty : Draft := ⟨none, none⟩

def withMessage (d : Draft) (message : String) : Draft := { d with message := some message }

def withTimestamp (d : Draft) (timestamp : Int64) : Draft := { d with timestamp := some timestamp }

/-- An entry needs both of its parts. -/
def finish? (d : Draft) : Option LogEntry := do
  let timestamp ← d.timestamp
  let message ← d.message
  return { message, timestamp }

end Draft

/-- The entry of an event; `account` is what is told of a draft that cannot be finished. -/
def ofEvent (account : String) (event : Event) : Except UploadError LogEntry :=
  match ((Draft.empty.withMessage event.message).withTimestamp event.timestamp).finish? with
  | some entry => .ok entry
  | none => .error (.refused ("invalid log event: " ++ account))

def event (entry : LogEntry) : Event := ⟨entry.message, entry.timestamp⟩

end LogEntry

/-- What is sent to the service to store entries in a stream of a group. -/
structure Request where
  logGroup : String
  logStream : String
  entries : List LogEntry
  deriving DecidableEq

/-- The call that a request tells of. -/
def Request.call (request : Request) : Call :=
  ⟨⟨request.logGroup, request.logStream⟩, request.entries.map LogEntry.event⟩

end MetricUpload
