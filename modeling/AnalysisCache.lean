import AnalysisCache.Main
import AnalysisCache.Proofs.Files.Spelling
import AnalysisCache.Proofs.Files.Change
import AnalysisCache.Proofs.Json.Text
import AnalysisCache.Proofs.Json.Value
import AnalysisCache.Proofs.Dependencies.Invert
import AnalysisCache.Proofs.Diagnostic.Partition
import AnalysisCache.Proofs.Fingerprint.Inputs
import AnalysisCache.Proofs.Json.Shape
import AnalysisCache.Proofs.Snapshot.Encoding
import AnalysisCache.Proofs.Snapshot.Truncation
import AnalysisCache.Proofs.Plan.Merge
import AnalysisCache.Proofs.Plan.Scope
import AnalysisCache.Proofs.Run.Analyzer
import AnalysisCache.Proofs.Run.Incremental
import AnalysisCache.Proofs.Run.LateEdits
import AnalysisCache.Proofs.Run.NewFiles
import AnalysisCache.Proofs.Json.Prefix
import AnalysisCache.Proofs.Files.Frame
import AnalysisCache.Proofs.Run.Replacement
import AnalysisCache.Proofs.Dependencies.RoundTrip
import AnalysisCache.Proofs.Files.Overwrite
import AnalysisCache.Proofs.Run.Repeat
import AnalysisCache.Proofs.Files.Removal
import AnalysisCache.Proofs.Command.Reading
import AnalysisCache.Proofs.Digest.Lines
import AnalysisCache.Proofs.Files.Lines
import AnalysisCache.Proofs.Run.Sight
import AnalysisCache.Proofs.Run.LineEndings
import AnalysisCache.Proofs.Run.Course
import AnalysisCache.Proofs.Run.Expiry
import AnalysisCache.Proofs.Run.Contents
import AnalysisCache.Proofs.Dependencies.Inverse
import AnalysisCache.Proofs.Dependencies.Outcome
import AnalysisCache.Proofs.Fingerprint.Environment
import AnalysisCache.Proofs.Run.Leftovers
import AnalysisCache.Proofs.Plan.Order
import AnalysisCache.Proofs.Plan.Report
import AnalysisCache.Proofs.Run.Dependencies
import AnalysisCache.Proofs.Diagnostic.Groups
import AnalysisCache.Proofs.Digest.Text
import AnalysisCache.Proofs.Files.Entry
import AnalysisCache.Proofs.Config.Location
import AnalysisCache.Proofs.Files.Below
import AnalysisCache.Proofs.Project.Discovery
import AnalysisCache.Proofs.Dependencies.Forward
import AnalysisCache.Proofs.Run.Uses
