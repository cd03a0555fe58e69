namespace MetricUpload

/-- An existing log group and a log stream in it. -/
structure Target where
  logGroup : String
  logStream : String
  deriving DecidableEq

/-- Which events the service refused: those from the first index on as too new, those before the
others as too old or expired. -/
structure Rejected where
  tooNewStart : Option Nat
  tooOldEnd : Option Nat
  expiredEnd : Option Nat
  deriving DecidableEq

namespace Rejected

def none : Rejected := ⟨.none, .none, .none⟩

def isEmpty (r : Rejected) : Bool :=
  r.tooNewStart.isNone && r.tooOldEnd.isNone && r.expiredEnd.isNone

end Rejected

/-- The answer to an upload: how many events were sent, and which of them were refused. -/
structure Summary where
  events : Nat
  rejected : Rejected
  deriving DecidableEq

end MetricUpload
