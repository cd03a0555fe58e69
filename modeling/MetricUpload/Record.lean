import MetricUpload.Json.Value

namespace MetricUpload

/-- The members of one JSON object. -/
abbrev Record := List (String × Json)

/-- How a document differs from a record or an array of records with metadata objects. -/
inductive ShapeFault where
  | document (kind : Kind)
  | element (index : Nat) (kind : Kind)
  | metadata (kind : Kind)
  | inRecord (index : Nat) (fault : ShapeFault)
  | described (text : String)
  deriving DecidableEq

def metadataKey : String := "_aws"

def timestampKey : String := "Timestamp"

/-- How far before the present a record is dated, in milliseconds. -/
def backdating : Int := 1000

namespace ShapeFault

def message : ShapeFault → String
  | .document kind =>
    "top-level JSON " ++ kind.name ++ ", expected an object or an array of objects"
  | .element index kind =>
    "element " ++ toString index ++ " is a JSON " ++ kind.name ++ ", expected an object"
  | .metadata kind =>
    "\"" ++ metadataKey ++ "\" is a JSON " ++ kind.name ++ ", expected an object"
  | .inRecord index fault => "record " ++ toString index ++ ": " ++ fault.message
  | .described text => text

end ShapeFault

namespace Record

/-- The objects of an array, up to the first element that is none. -/
def ofItems : Nat → List Json → Except ShapeFault (List Record)
  | _, [] => .ok []
  | index, .object members :: items => (ofItems (index + 1) items).map (members :: ·)
  | index, item :: _ => .error (.element index item.kind)

/-- The records of a document: a lone object is one record. -/
def ofJson : Json → Except ShapeFault (List Record)
  | .object members => .ok [members]
  | .array items => ofItems 0 items
  | v => .error (.document v.kind)

/-- So long before `now`, by an exact subtraction. Where a difference of words would overflow, less
than a second above the least word, this is a number that no word holds. -/
def timestamp (now : Int64) : Json := .number (.int (now.toInt - backdating))

/-- Dates the metadata one second before `now`. A record without metadata stays as it is. -/
def backdate (now : Int64) (r : Record) : Except ShapeFault Record :=
  match r.lookup metadataKey with
  | some (.object metadata) =>
    .ok (Fields.put metadataKey (.object (Fields.put timestampKey (timestamp now) metadata)) r)
  | some v => .error (.metadata v.kind)
  | none => .ok r

end Record

end MetricUpload
