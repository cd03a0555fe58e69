import MetricUpload.Upload

namespace MetricUpload

/-- One set of records and the events last built from it, beside the files and the answer of the
sink. The log is kept until an upload shows it. -/
structure Session where
  records : List Record
  events : List Event
  files : Files
  answer : FixedAnswer
  log : List LogLine

inductive Session.Step where
  | parse (text : String)
  | load (path : String)
  | backdate (now : Int64)
  | backdateOne (index : Nat) (now : Int64)
  | build (clock : Clock)
  | reread (index : Nat)
  | write (path : String) (entry : Entry)
  | setAnswer (answer : FixedAnswer)
  | upload (path : String) (target : Target) (clock : Clock)

/-- The records of a kept message, whether they equal the present record of its index, and whether
the first of them makes the same event again. -/
structure Session.Reread where
  records : List Record
  sameRecord : Bool
  sameEvent : Bool

inductive Session.Answer where
  | done
  | records (records : List Record)
  | events (events : List Event)
  | reread (r : Session.Reread)
  | uploaded (u : Upload)
  | failed (e : UploadError)
  | noSuchIndex

namespace Session

def start (files : Files) : Session := ⟨[], [], files, .accepting, []⟩

/-- New records, or the old ones when there are none. -/
def replace (s : Session) (log : List LogLine) (outcome : Except UploadError (List Record)) :
    Session × Answer :=
  let s := { s with log := s.log ++ log }
  match outcome with
  | .ok records => ({ s with records }, .records records)
  | .error e => (s, .failed e)

def backdateOne (s : Session) (index : Nat) (now : Int64) : Session × Answer :=
  match s.records[index]? with
  | none => (s, .noSuchIndex)
  | some r =>
    match r.backdate now with
    | .ok dated => s.replace (RecordSet.backdateLog r) (.ok (s.records.set index dated))
    | .error fault => (s, .failed (.shape fault))

def rereadEvent (s : Session) (index : Nat) : Answer :=
  match s.events[index]? with
  | none => .noSuchIndex
  | some event =>
    match RecordSet.ofText event.message with
    | .error e => .failed e
    | .ok records =>
      .reread
        { records
          sameRecord := s.records[index]?.any fun r => RecordSet.same records [r]
          sameEvent := records.head?.any fun r => Event.ofRecord r event.timestamp = event }

def step (s : Session) : Step → Session × Answer
  | .parse text => s.replace [] (RecordSet.ofText text)
  | .load path =>
    let loaded := RecordSet.load s.files.read path
    s.replace (RecordSet.loadLog path loaded) loaded
  | .backdate now =>
    let (log, dated) := RecordSet.backdate now s.records
    s.replace log dated
  | .backdateOne index now => s.backdateOne index now
  | .build clock =>
    let events := (Event.ofRecords clock s.records).1
    ({ s with events }, .events events)
  | .reread index => (s, s.rereadEvent index)
  | .write path entry => ({ s with files := s.files.write path entry }, .done)
  | .setAnswer answer => ({ s with answer }, .done)
  | .upload path target clock =>
    let u := Upload.run s.files.read path target s.answer.sink clock
    ({ s with log := [] }, .uploaded (u.after s.log))

/-- The answers to a sequence of steps. -/
def run : Session → List Step → List Answer
  | _, [] => []
  | s, step :: steps =>
    let (next, answer) := s.step step
    answer :: next.run steps

end Session

end MetricUpload
