import MetricUpload.Main
import MetricUpload.Proofs.CommandLine.Grammar
import MetricUpload.Proofs.Service.Exchange
import MetricUpload.Proofs.Session.History
import MetricUpload.Proofs.Program.Outcome
import MetricUpload.Proofs.Upload.Chronology
import MetricUpload.Proofs.Upload.Listing
import MetricUpload.Proofs.Upload.Log
import MetricUpload.Proofs.Upload.Repetition
import MetricUpload.Proofs.Upload.Spelling
import MetricUpload.Proofs.Upload.Stages
import MetricUpload.Proofs.Upload.WholeFile
import MetricUpload.Proofs.Record.CompactLine
import MetricUpload.Proofs.Record.KeyOrder
import MetricUpload.Proofs.Record.RepeatedKeys
import MetricUpload.Proofs.Record.Rereading
import MetricUpload.Proofs.Record.Stamping
