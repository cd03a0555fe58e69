import MetricUpload.Settings

namespace MetricUpload

/-- What a run must or may be given. -/
inductive Slot where
  | parameter (p : Parameter)
  | file
  deriving DecidableEq

namespace Slot

/-- How usage texts name it. -/
def label : Slot → String
  | .parameter .logGroup => "--log-group <LOG_GROUP>"
  | .parameter .logStream => "--log-stream <LOG_STREAM>"
  | .parameter .region => "--region <REGION>"
  | .file => "<FILE>"

def required : List Slot := [.parameter .logGroup, .parameter .logStream, .file]

end Slot

inductive UsageFault where
  | noValue (slot : Slot)
  | repeated (slot : Slot)
  | valueForHelp
  | unknown (argument : String)
  | missing (slots : List Slot)
  deriving DecidableEq

namespace UsageFault

/-- The arguments that a fault is about. -/
def subjects : UsageFault → List String
  | .noValue slot => [slot.label]
  | .repeated slot => [slot.label]
  | .valueForHelp => ["--help"]
  | .unknown argument => [argument]
  | .missing slots => slots.map Slot.label

end UsageFault

inductive Help where
  | short
  | long
  deriving DecidableEq

/-- Why a command line gives no settings. -/
inductive CommandStop where
  | help (h : Help)
  | fault (f : UsageFault)
  deriving DecidableEq

/-- An argument by its form. A lone `-` is a word. -/
inductive Argument where
  | separator
  | long (name : String) (value : Option String)
  | short (letter : Char)
  | word (text : String)
  deriving DecidableEq

namespace Argument

/-- The part after the first `=`. -/
def attached? : List Char → Option String
  | [] => none
  | c :: cs => if c == '=' then some (String.ofList cs) else attached? cs

def ofString (text : String) : Argument :=
  match text.toList with
  | ['-', '-'] => .separator
  | '-' :: '-' :: cs => .long (String.ofList (cs.takeWhile (· != '='))) (attached? cs)
  | '-' :: letter :: _ => .short letter
  | _ => .word text

end Argument

/-- An argument whose faults come to light only when the next one is taken up or the line ends. -/
inductive Pending where
  | parameter (p : Parameter) (value : Option String)
  | file (path : String)
  deriving DecidableEq

/-- A command line read so far. After a separator every argument is a word. -/
structure CommandLine where
  given : List (Parameter × String)
  file : Option String
  pending : Option Pending
  separated : Bool

namespace CommandLine

def empty : CommandLine := ⟨[], none, none, false⟩

/-- A parameter is given once. -/
def give (line : CommandLine) (p : Parameter) (value : String) : Except CommandStop CommandLine :=
  if (line.given.lookup p).isSome then .error (.fault (.repeated (.parameter p)))
  else .ok { line with given := line.given ++ [(p, value)] }

/-- Takes up what is pending. -/
def settle (line : CommandLine) : Except CommandStop CommandLine :=
  match line.pending with
  | none => .ok line
  | some (.parameter p none) => .error (.fault (.noValue (.parameter p)))
  | some (.parameter p (some value)) => give { line with pending := none } p value
  | some (.file path) =>
    if path = "" then .error (.fault (.noValue .file))
    else .ok { line with pending := none, file := some path }

def hasFile (line : CommandLine) : Bool :=
  match line.pending with
  | some (.file _) => true
  | _ => line.file.isSome

/-- A word that is no value. There is one file, and a second is refused before anything pending. -/
def addFile (line : CommandLine) (path : String) : Except CommandStop CommandLine :=
  if line.hasFile then .error (.fault (.unknown path))
  else do
    let line ← line.settle
    .ok { line with pending := some (.file path) }

def addWord (line : CommandLine) (text : String) : Except CommandStop CommandLine :=
  match line.pending with
  | some (.parameter p none) => .ok { line with pending := some (.parameter p (some text)) }
  | _ => line.addFile text

def addLong (line : CommandLine) (name : String) (value : Option String) :
    Except CommandStop CommandLine :=
  match Parameter.ofName? name, value with
  | some p, some value => do (← line.settle).give p value
  | some p, none => do
    let line ← line.settle
    .ok { line with pending := some (.parameter p none) }
  | none, value =>
    if name = "help" then
      match value with
      | some _ => .error (.fault .valueForHelp)
      | none => do
        let _ ← line.settle
        .error (.help .long)
    else .error (.fault (.unknown ("--" ++ name)))

/-- The first letter decides: it asks for help or is unknown. -/
def addShort (line : CommandLine) (letter : Char) : Except CommandStop CommandLine :=
  if letter = 'h' then do
    let _ ← line.settle
    .error (.help .short)
  else .error (.fault (.unknown (String.ofList ['-', letter])))

def add (line : CommandLine) (text : String) : Except CommandStop CommandLine :=
  if line.separated then line.addFile text
  else
    match Argument.ofString text with
    | .separator => .ok { line with separated := true }
    | .long name value => line.addLong name value
    | .short letter => line.addShort letter
    | .word text => line.addWord text

def has (line : CommandLine) : Slot → Bool
  | .parameter p => (line.given.lookup p).isSome
  | .file => line.file.isSome

def finish (line : CommandLine) : Except CommandStop Settings := do
  let line ← line.settle
  match line.given.lookup .logGroup, line.given.lookup .logStream, line.file with
  | some logGroup, some logStream, some file =>
    .ok ⟨file, ⟨logGroup, logStream⟩, line.given.lookup .region⟩
  | _, _, _ => .error (.fault (.missing (Slot.required.filter fun slot => !line.has slot)))

/-- Reads arguments from left to right; the first fault counts. -/
def parse (arguments : List String) : Except CommandStop Settings := do
  (← arguments.foldlM add empty).finish

end CommandLine

end MetricUpload
