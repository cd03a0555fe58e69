import MetricUpload.Program
import Std.Time.DateTime.Timestamp

namespace MetricUpload

/-- The fault behind an error of the system, told apart by its code where one error covers two. -/
def readFault : IO.Error → ReadFault
  | .noFileOrDirectory _ _ _ => .notFound
  | .inappropriateType _ code _ => if code = 21 then .isDirectory else .notDirectory
  | .invalidArgument _ code _ => if code = 22 then .nulInName else .nameTooLong
  | e => .other (toString e)

def readDisk (path : String) : IO (Except ReadFault ByteArray) := do
  try
    return .ok (← IO.FS.readBinFile path)
  catch e =>
    return .error (readFault e)

def present : IO Instant := do
  let now ← Std.Time.Timestamp.now
  return ⟨now.toNanosecondsSinceUnixEpoch.val⟩

/-- One reading of the system clock serves for the whole run, and no service is connected. -/
def runProgram (arguments : List String) : IO UInt32 := do
  let content ← match Program.settings arguments with
    | .ok settings => readDisk settings.file
    | .error _ => pure (.error .notFound)
  let instant ← present
  let outcome := Program.run arguments (fun _ => content) (.ofInstants fun _ => instant)
    (.unreachable "the service cannot be reached")
  for line in LogLine.shown (some .info) outcome.log do
    IO.eprintln line.text
  IO.print outcome.stdout
  unless outcome.stderr.isEmpty do
    IO.eprintln outcome.stderr
  return outcome.exit.toUInt32

end MetricUpload

def main (arguments : List String) : IO UInt32 := MetricUpload.runProgram arguments
