import MetricUpload.RecordSet
import MetricUpload.Sink

namespace MetricUpload

/-- What an upload does that others can see: it writes a line of the log, or calls the sink. -/
inductive Effect where
  | noted (line : LogLine)
  | called (call : Call)

namespace Effect

def line? : Effect → Option LogLine
  | .noted line => some line
  | .called _ => none

def call? : Effect → Option Call
  | .noted _ => none
  | .called call => some call

end Effect

/-- What became of an upload: its result, all that it did in the order in which it did it, and the
clock after it. -/
structure Upload where
  result : Except UploadError Summary
  effects : List Effect
  clock : Clock

namespace Upload

def log (u : Upload) : List LogLine := u.effects.filterMap Effect.line?

def calls (u : Upload) : List Call := u.effects.filterMap Effect.call?

/-- The line that follows a call. -/
def outcomeLog : Except UploadError Summary → List LogLine
  | .ok summary =>
    if summary.rejected.isEmpty then [.accepted summary.events]
    else [.rejected summary.events summary.rejected]
  | .error _ => []

/-- Hands the events to the sink. -/
def send (target : Target) (sink : Sink) (clock : Clock) (events : List Event) : Upload :=
  let result := sink target events
  { result
    effects := .noted (.uploading events.length target) :: .called ⟨target, events⟩ ::
      (outcomeLog result).map .noted
    clock }

/-- An upload that ended before the sink was called. -/
def failed (clock : Clock) (e : UploadError) : Upload := ⟨.error e, [], clock⟩

def after (log : List LogLine) (u : Upload) : Upload :=
  { u with effects := log.map .noted ++ u.effects }

/-- Reads a file, dates its records, and sends one event for each. The clock is read once for all
records and then once for each event. -/
def run (disk : Disk) (path : String) (target : Target) (sink : Sink) (clock : Clock) : Upload :=
  let loaded := RecordSet.load disk path
  after (RecordSet.loadLog path loaded) <|
    match loaded with
    | .error e => failed clock e
    | .ok records =>
      let (log, dated) := RecordSet.backdate clock.now records
      after log <|
        match dated with
        | .error e => failed clock.tick e
        | .ok dated =>
          let (events, last) := Event.ofRecords clock.tick dated
          send target sink last events

end Upload

end MetricUpload
