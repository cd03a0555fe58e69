import MetricUpload.CommandLine.Help
import MetricUpload.Service
import MetricUpload.Upload

namespace MetricUpload

/-- What a run of the program leaves behind. -/
structure Outcome where
  exit : Nat
  stdout : String
  stderr : String
  log : List LogLine
  requests : List Call

namespace Outcome

def success : Nat := 0

def failure : Nat := 1

def misuse : Nat := 2

def errorText (message : String) : String := "Error: " ++ message

/-- The words in which a misuse is told are left out. -/
def ofStop : CommandStop → Outcome
  | .help h => ⟨success, h.text, "", [], []⟩
  | .fault _ => ⟨misuse, "", "", [], []⟩

def ofBlank (blank : BlankParameter) : Outcome :=
  ⟨failure, "", errorText blank.message, [], []⟩

/-- Refused events do not make an upload fail. -/
def ofUpload (service : Service) (u : Upload) : Outcome :=
  let requests := service.requests u.calls
  match u.result with
  | .ok _ => ⟨success, "", "", u.log, requests⟩
  | .error e => ⟨failure, "", errorText e.message, u.log, requests⟩

end Outcome

namespace Program

/-- The settings that the arguments give, once they are known not to be blank. -/
def settings (arguments : List String) : Except Outcome Settings := do
  let settings ← (CommandLine.parse arguments).mapError .ofStop
  settings.check.mapError .ofBlank

def run (arguments : List String) (disk : Disk) (clock : Clock) (service : Service) : Outcome :=
  match settings arguments with
  | .error outcome => outcome
  | .ok settings =>
    .ofUpload service (Upload.run disk settings.file settings.target service.sink clock)

end Program

end MetricUpload
