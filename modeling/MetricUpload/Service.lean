import MetricUpload.Reply
import MetricUpload.Request

namespace MetricUpload

/-- The log service as one call finds it, with the words in which a failure of the call would be
told. -/
inductive Service where
  | unreachable (account : String := "")
  | reply (status : Int) (body : String) (account : String := "")

/-- What a delivery comes to: the requests that reach the service, and the answer to the caller. -/
structure Exchange where
  requests : List Request
  result : Except UploadError Summary

namespace Service

def account : Service → String
  | .unreachable account => account
  | .reply _ _ account => account

/-- The statuses from 200 to 299. -/
def isSuccess (status : Int) : Bool := 200 ≤ status && status < 300

/-- The rejections that the service reports, unless the call fails. -/
def rejected? : Service → Option Rejected
  | .unreachable _ => none
  | .reply status body _ => if isSuccess status then Reply.rejected? body else none

/-- A request reaches the service if anything does. -/
def receive : Service → Request → List Request
  | .unreachable _, _ => []
  | .reply _ _ _, request => [request]

/-- Sends the events to the target in one request, an entry for each. The summary counts what was
sent, whatever the service rejects of it. -/
def deliver (service : Service) (target : Target) (events : List Event) : Exchange :=
  match events.mapM (LogEntry.ofEvent service.account) with
  | .error e => ⟨[], .error e⟩
  | .ok entries =>
    let request : Request :=
      { logGroup := target.logGroup, logStream := target.logStream, entries }
    { requests := service.receive request
      result :=
        match service.rejected? with
        | some rejected => .ok ⟨events.length, rejected⟩
        | none => .error (.refused service.account) }

def sink (service : Service) : Sink := fun target events => (service.deliver target events).result

/-- The requests that reach the service when the sink is called, told as calls. -/
def requests (service : Service) (calls : List Call) : List Call :=
  calls.flatMap fun call => (service.deliver call.target call.events).requests.map Request.call

end Service

end MetricUpload
