import MetricUpload.Reply.Value
import MetricUpload.Target

namespace MetricUpload

namespace Reply

def infoKey : String := "rejectedLogEventsInfo"

def tooNewKey : String := "tooNewLogEventStartIndex"

def tooOldKey : String := "tooOldLogEventEndIndex"

def expiredKey : String := "expiredLogEventEndIndex"

def tokenKey : String := "nextSequenceToken"

def entityKey : String := "rejectedEntityInfo"

def errorTypeKey : String := "errorType"

/-- A value that is passed over may have so many containers open at once. -/
def skippedDepth : Nat := 512

namespace Value

def isSkippable (v : Value) : Bool := v.depth ≤ skippedDepth

/-- Null, or a string whose escapes are in order. -/
def isText : Value → Bool
  | .null => true
  | .string raw => (Json.unquoted? raw).isSome
  | _ => false

def isEntityMember (member : List Char × Value) : Bool :=
  match Json.unquoted? member.1 with
  | some key => if key = errorTypeKey then member.2.isText else member.2.isSkippable
  | none => false

/-- Null, or an object that may name the type of an error. -/
def isEntity : Value → Bool
  | .null => true
  | .object members => members.all isEntityMember
  | _ => false

end Value

/-- One more than the greatest index, `2 ^ 31 - 1`. -/
def indexLimit : Int := 2147483648

/-- An index is absent when it is null or negative, and has at most 32 bits with its sign. -/
def index? : Value → Option (Option Nat)
  | .null => some none
  | .number d => do
    let n ← d.toInt?
    if n < -indexLimit ∨ indexLimit ≤ n then none
    else if n < 0 then some none
    else some (some n.toNat)
  | _ => none

def addIndex? (rejected : Rejected) (member : List Char × Value) : Option Rejected := do
  let key ← Json.unquoted? member.1
  if key = tooNewKey then (index? member.2).map fun i => { rejected with tooNewStart := i }
  else if key = tooOldKey then (index? member.2).map fun i => { rejected with tooOldEnd := i }
  else if key = expiredKey then (index? member.2).map fun i => { rejected with expiredEnd := i }
  else if member.2.isSkippable then some rejected
  else none

/-- The indices of the rejected events. Of a repeated key the last counts, but all must be in
order. -/
def info? : Value → Option Rejected
  | .null => some Rejected.none
  | .object members => members.foldlM addIndex? Rejected.none
  | _ => none

/-- What is wanted of the other members of a reply. -/
def isOther (key : String) (v : Value) : Bool :=
  if key = tokenKey then v.isText
  else if key = entityKey then v.isEntity
  else v.isSkippable

def addMember? (rejected : Rejected) (member : List Char × Value) : Option Rejected := do
  let key ← Json.unquoted? member.1
  if key = infoKey then info? member.2
  else if isOther key member.2 then some rejected
  else none

/-- The rejections that the body of a reply reports; an empty body reports none. -/
def rejected? (body : String) : Option Rejected :=
  if body = "" then some Rejected.none
  else match Value.ofChars? body.toList with
    | some (.object members) => members.foldlM addMember? Rejected.none
    | _ => none

end Reply

end MetricUpload
