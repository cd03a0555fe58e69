import MetricUpload.Files
import MetricUpload.Json.Fault
import MetricUpload.Record

namespace MetricUpload

/-- Why records were not read or not uploaded. -/
inductive UploadError where
  | unreadable (path : String) (fault : ReadFault)
  | badFile (path : String) (fault : Json.Fault)
  | badText (fault : Json.Fault)
  | shape (fault : ShapeFault)
  | encoding (fault : Json.Fault)
  | refused (text : String)
  deriving DecidableEq

namespace UploadError

def message : UploadError → String
  | .unreadable path fault => "cannot read " ++ path ++ ": " ++ fault.message
  | .badFile path fault => "bad JSON in " ++ path ++ ": " ++ fault.message
  | .badText fault => "bad JSON: " ++ fault.message
  | .shape fault => "unexpected record shape: " ++ fault.message
  | .encoding fault => "record serialization: " ++ fault.message
  | .refused text => "upload failed: " ++ text

end UploadError

end MetricUpload
