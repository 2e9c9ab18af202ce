import WheelFarm.Config
import WheelFarm.Ledger.Error

/-! What can go wrong while a command is carried out. -/
namespace WheelFarm.Execution

inductive ExecutionError
  | config (cause : ConfigError)
  /-- The ledger's file cannot be created, or cannot be opened for the cause given. -/
  | opening (location : String) (cause : Option LedgerError)
  | ledger (cause : LedgerError)
  /-- A build report cannot be read, or is none. -/
  | report (path : String)
  | output
  deriving DecidableEq, Repr

namespace ExecutionError

def message : ExecutionError → String
  | config _ => "configuration error"
  | opening location _ => s!"could not open the ledger at {location}"
  | ledger _ => "ledger operation failed"
  | report path => s!"could not read build report {path}"
  | output => "could not write output"

def isRetryable : ExecutionError → Bool
  | ledger cause => cause.isRetryable
  | _ => false

end ExecutionError
end WheelFarm.Execution
