import MetricUpload.Target
import MetricUpload.WhiteSpace

namespace MetricUpload

/-- The named parameters of a run. -/
inductive Parameter where
  | logGroup
  | logStream
  | region
  deriving DecidableEq

namespace Parameter

def name : Parameter → String
  | .logGroup => "log-group"
  | .logStream => "log-stream"
  | .region => "region"

def flag (p : Parameter) : String := "--" ++ p.name

def all : List Parameter := [.logGroup, .logStream, .region]

def ofName? (name : String) : Option Parameter := all.find? (fun p => p.name = name)

end Parameter

/-- What a run works on. -/
structure Settings where
  file : String
  target : Target
  region : Option String
  deriving DecidableEq

/-- A parameter that was given nothing but white space. -/
structure BlankParameter where
  parameter : Parameter
  deriving DecidableEq

namespace BlankParameter

def message (blank : BlankParameter) : String := blank.parameter.flag ++ " must not be empty"

end BlankParameter

namespace Settings

def value? (s : Settings) : Parameter → Option String
  | .logGroup => some s.target.logGroup
  | .logStream => some s.target.logStream
  | .region => s.region

/-- Names the first blank parameter. Values are left as they are, and the file is not looked at. -/
def check (s : Settings) : Except BlankParameter Settings :=
  match Parameter.all.find? (fun p => (s.value? p).any isBlankText) with
  | some p => .error ⟨p⟩
  | none => .ok s

end Settings

end MetricUpload
