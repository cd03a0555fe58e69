import MetricUpload.CommandLine

namespace MetricUpload

namespace Help

def shortLines : List String := [
    "Upload EMF records to CloudWatch Logs for manual validation",
    "",
    "Usage: put-logs [OPTIONS] --log-group <LOG_GROUP> --log-stream <LOG_STREAM> <FILE>",
    "",
    "Arguments:",
    "  <FILE>  Path to the log file to read. Must be valid JSON holding one log entry (a JSON object) or an array of them",
    "",
    "Options:",
    "      --log-group <LOG_GROUP>    Log group to use",
    "      --log-stream <LOG_STREAM>  Log stream to use",
    "      --region <REGION>          Region to use (default: resolved by the AWS SDK)",
    "  -h, --help                     Print help (see more with '--help')"]

def longLines : List String := [
    "Helper test program to validate EMF processing.",
    "",
    "Intended for use while developing the EMF writer: when a new kind of EMF record",
    "is created, this program can be used to check that it behaves in CloudWatch the",
    "way the developer expects. It is NOT intended for use by users of the writer.",
    "",
    "It uploads a log to CloudWatch Logs. You can then go to CloudWatch Metrics to see",
    "that the metrics have been ingested correctly. Processing may take several minutes.",
    "",
    "First create a log group and a log stream, for example:",
    "",
    "    aws logs create-log-group --log-group-name TestLogGroup &&",
    "        aws logs create-log-stream --log-group-name TestLogGroup --log-stream-name TestLogStream",
    "",
    "Then call this program with the log group, log stream and a log file:",
    "",
    "    put-logs ./file.json --log-group=TestLogGroup --log-stream=TestLogStream",
    "",
    "The file holds either a single JSON object:",
    "",
    "    \x7b\"_aws\":\x7b\"CloudWatchMetrics\":[\x7b\"Namespace\":\"MyNS\",\"Dimensions\":[[\"label\"]],\"Metrics\":[\x7b\"Name\":\"my_counter\"\x7d]\x7d],\"Timestamp\":1\x7d,\"label\":\"value1\",\"my_counter\":1\x7d",
    "",
    "or a JSON array of them:",
    "",
    "    [",
    "        \x7b\"_aws\":\x7b\"CloudWatchMetrics\":[\x7b\"Namespace\":\"MyNS\",\"Dimensions\":[[\"label\"]],\"Metrics\":[\x7b\"Name\":\"my_counter\"\x7d]\x7d],\"Timestamp\":1\x7d,\"label\":\"value2\",\"my_counter\":2\x7d,",
    "        \x7b\"_aws\":\x7b\"CloudWatchMetrics\":[\x7b\"Namespace\":\"MyNS\",\"Dimensions\":[[]],\"Metrics\":[\x7b\"Name\":\"my_counter\"\x7d]\x7d],\"Timestamp\":1\x7d,\"my_counter\":3\x7d",
    "    ]",
    "",
    "NOTE: the \"_aws.Timestamp\" of every record is rewritten to one second before the",
    "current time. Unit-test fixtures carry canned timestamps far in the past, which",
    "CloudWatch Metrics would not accept. This is not what you want in production.",
    "",
    "Usage: put-logs [OPTIONS] --log-group <LOG_GROUP> --log-stream <LOG_STREAM> <FILE>",
    "",
    "Arguments:",
    "  <FILE>",
    "          Path to the log file to read. Must be valid JSON holding one log entry (a JSON object) or an array of them",
    "",
    "Options:",
    "      --log-group <LOG_GROUP>",
    "          Log group to use",
    "",
    "      --log-stream <LOG_STREAM>",
    "          Log stream to use",
    "",
    "      --region <REGION>",
    "          Region to use (default: resolved by the AWS SDK)",
    "",
    "  -h, --help",
    "          Print help (see a summary with '-h')"]

def lines : Help → List String
  | .short => shortLines
  | .long => longLines

def text (h : Help) : String := String.join (h.lines.map (· ++ "\n"))

end Help

end MetricUpload
