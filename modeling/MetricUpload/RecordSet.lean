import MetricUpload.Json.Reader
import MetricUpload.Log
import MetricUpload.UploadError

namespace MetricUpload

namespace RecordSet

/-- Equality of values, record by record. -/
def same (as bs : List Record) : Bool := Json.sameItems (as.map .object) (bs.map .object)

/-- The records of a text. The whole text is read before its shape is judged. -/
def ofText (text : String) : Except UploadError (List Record) :=
  match Json.read text with
  | .ok v => (Record.ofJson v).mapError .shape
  | .error fault => .error (.badText fault)

/-- The records of a file. -/
def load (disk : Disk) (path : String) : Except UploadError (List Record) :=
  match disk.readText path with
  | .error fault => .error (.unreadable path fault)
  | .ok text =>
    match Json.read text with
    | .ok v => (Record.ofJson v).mapError .shape
    | .error fault => .error (.badFile path fault)

/-- A successful loading leaves a line in the log. -/
def loadLog (path : String) : Except UploadError (List Record) → List LogLine
  | .ok records => [.loaded path records.length]
  | .error _ => []

/-- The line for a record that has no metadata to date. -/
def backdateLog (r : Record) : List LogLine :=
  if (r.lookup metadataKey).isNone then [.withoutMetadata] else []

/-- Dates the records from the given index on, until one of them has metadata of a wrong kind. -/
def backdateFrom (now : Int64) : Nat → List Record → List LogLine × Except ShapeFault (List Record)
  | _, [] => ([], .ok [])
  | index, r :: records =>
    match r.backdate now with
    | .error fault => ([], .error (.inRecord index fault))
    | .ok dated =>
      let (log, rest) := backdateFrom now (index + 1) records
      (backdateLog r ++ log, rest.map (dated :: ·))

/-- Dates all records by one reading of the clock, or none of them. -/
def backdate (now : Int64) (records : List Record) :
    List LogLine × Except UploadError (List Record) :=
  let (log, dated) := backdateFrom now 0 records
  (log, dated.mapError .shape)

end RecordSet

end MetricUpload
