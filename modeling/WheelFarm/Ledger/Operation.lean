import WheelFarm.Ledger.Catalog
import WheelFarm.Ledger.Commit
import WheelFarm.Ledger.History

/-! The operations that change the ledger. One that fails leaves the ledger as it was, and a run is
a list of operations, each made at the moment that the clock shows. -/
namespace WheelFarm.Ledger

inductive Operation
  | addPackage (package : String) (skip : Option String)
  | addVersion (package version : String) (released : Option Int) (skip : Option String)
  | skipPackage (package reason : String)
  | skipVersion (package version reason : String)
  | deleteVersion (package version : String)
  | deletePackage (package : String)
  | addAbi (abi : String)
  | removeAbi (abi : String)
  | commit (report : BuildReport)
  | forget (package version : String)
  | setSerial (serial : UInt64)
  deriving DecidableEq

inductive Reply
  | done
  /-- Whether there was something to do. -/
  | changed (yes : Bool)
  | recorded (build : Int)
  /-- How many builds were forgotten. -/
  | forgotten (builds : Nat)
  deriving DecidableEq, Repr

/-- Performs an operation; a release that is not dated is one of this moment. -/
def perform (l : Ledger) (now : Int) : Operation → Except LedgerError (Reply × Ledger)
  | .addPackage package skip => .ok (l.addPackage package skip |>.map .changed id)
  | .addVersion package version released skip =>
    (l.addVersion package version (released.getD now) skip).map (·.map .changed id)
  | .skipPackage package reason => .ok (.done, l.skipPackage package reason)
  | .skipVersion package version reason => .ok (.done, l.skipVersion package version reason)
  | .deleteVersion package version => .ok (l.deleteVersion package version |>.map .changed id)
  | .deletePackage package => (l.deletePackage package).map (·.map .changed id)
  | .addAbi abi => (l.addAbi abi).map (·.map .changed id)
  | .removeAbi abi => .ok (l.removeAbi abi |>.map .changed id)
  | .commit report => (l.commit now report).map (·.map .recorded id)
  | .forget package version => .ok (l.forget package version |>.map .forgotten id)
  | .setSerial serial => (l.setSerial serial).map fun l => (.done, l)

/-- What an operation answers, and the ledger after it. -/
def step (l : Ledger) (now : Int) (op : Operation) : Except LedgerError Reply × Ledger :=
  match l.perform now op with
  | .ok (reply, l') => (.ok reply, l')
  | .error e => (.error e, l)

def run (l : Ledger) (ops : List (Int × Operation)) : Ledger :=
  ops.foldl (fun l op => (l.step op.1 op.2).2) l

end WheelFarm.Ledger
