import MetricUpload.Target

namespace MetricUpload

/-- How much a log line matters. -/
inductive Level where
  | debug
  | info
  | warn
  deriving DecidableEq

namespace Level

def rank : Level → Nat
  | .debug => 0
  | .info => 1
  | .warn => 2

def name : Level → String
  | .debug => "DEBUG"
  | .info => "INFO"
  | .warn => "WARN"

end Level

/-- What an upload tells about its course. -/
inductive LogLine where
  | loaded (path : String) (records : Nat)
  | withoutMetadata
  | uploading (events : Nat) (target : Target)
  | accepted (events : Nat)
  | rejected (events : Nat) (rejected : Rejected)
  deriving DecidableEq

namespace LogLine

def level : LogLine → Level
  | .loaded _ _ | .withoutMetadata => .debug
  | .uploading _ _ | .accepted _ => .info
  | .rejected _ _ => .warn

def indexText : Option Nat → String
  | some n => "Some(" ++ toString n ++ ")"
  | none => "None"

def body : LogLine → String
  | .loaded path records =>
    "emf_upload::record: loaded records path=" ++ path ++ " records=" ++ toString records
  | .withoutMetadata => "emf_upload::record: record has no \"_aws\" key, timestamp left as is"
  | .uploading events target =>
    "emf_upload::upload: uploading events=" ++ toString events ++ " log_group=" ++ target.logGroup ++
      " log_stream=" ++ target.logStream
  | .accepted events => "emf_upload::upload: upload accepted events=" ++ toString events
  | .rejected events r =>
    "emf_upload::upload: service rejected some events events=" ++ toString events ++
      " too_new_start=" ++ indexText r.tooNewStart ++
      " too_old_end=" ++ indexText r.tooOldEnd ++
      " expired_end=" ++ indexText r.expiredEnd

def text (line : LogLine) : String := line.level.name ++ " " ++ line.body

/-- The lines from a level on. Without a level nothing is shown. -/
def shown (least : Option Level) (log : List LogLine) : List LogLine :=
  log.filter fun line => least.any fun level => level.rank ≤ line.level.rank

end LogLine

end MetricUpload
