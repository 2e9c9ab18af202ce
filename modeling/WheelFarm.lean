import WheelFarm.Config.Load
import WheelFarm.Execution.Run
import WheelFarm.Ledger.Operation
import WheelFarm.Ledger.Snapshot
import WheelFarm.Ledger.Statistics
import WheelFarm.Ledger.Storage
import WheelFarm.Ledger.Targets
import WheelFarm.Main
import WheelFarm.ProjectName
import WheelFarm.Proofs.Ledger.BuildHistory
import WheelFarm.Proofs.Ledger.CommitOutcome
import WheelFarm.Proofs.Ledger.Intact
import WheelFarm.Proofs.Ledger.Outstanding
import WheelFarm.Proofs.Ledger.Ownership
import WheelFarm.Proofs.Ledger.Progress
import WheelFarm.Proofs.Ledger.Resubmission
import WheelFarm.Proofs.Ledger.Settled
import WheelFarm.Proofs.Ledger.Targets
import WheelFarm.Report.Decode
import WheelFarm.Report.Encode
import WheelFarm.Wheel.File
import WheelFarm.Proofs.Ledger.Locality
import WheelFarm.Proofs.Ledger.Dispatch
import WheelFarm.Proofs.Ledger.Universal
import WheelFarm.Proofs.Ledger.Renumbering
import WheelFarm.Proofs.Ledger.Commutation
import WheelFarm.Proofs.Ledger.CatalogMap
import WheelFarm.Proofs.Ledger.Statistics
import WheelFarm.Proofs.Ledger.Forgetting
import WheelFarm.Proofs.Ledger.Skipping
import WheelFarm.Proofs.Ledger.Serial
import WheelFarm.Proofs.Execution.Session
import WheelFarm.Proofs.Execution.Failure
import WheelFarm.Proofs.Report.RoundTrip
import WheelFarm.Proofs.Text.Pieces
import WheelFarm.Proofs.Wheel.Grammar
import WheelFarm.Proofs.Duration.RoundTrip
import WheelFarm.Proofs.Report.Rewriting
import WheelFarm.Proofs.Execution.Registering
import WheelFarm.Proofs.Text.Casing
import WheelFarm.Proofs.ProjectName
import WheelFarm.Proofs.CommandLine.Spelling
import WheelFarm.Proofs.CommandLine.PackageArgument
import WheelFarm.Proofs.Ledger.CanonicalNames
import WheelFarm.Proofs.Execution.Names
import WheelFarm.Proofs.Wheel.RoundTrip
import WheelFarm.Proofs.Wheel.Check
import WheelFarm.Proofs.ProjectName.Spellings
import WheelFarm.Proofs.Ledger.Reads
import WheelFarm.Proofs.Config.Validation
import WheelFarm.Proofs.Config.Layers
import WheelFarm.Proofs.Report.Layout
import WheelFarm.Proofs.Json.Grammar
import WheelFarm.Proofs.Json.Refusal
import WheelFarm.Proofs.Report.Presentation
import WheelFarm.Proofs.Json.Cuts
import WheelFarm.Proofs.Json.Truncation
import WheelFarm.Proofs.Report.Truncation
import WheelFarm.Proofs.Execution.TruncatedReports
import WheelFarm.Proofs.Ledger.Grouping
