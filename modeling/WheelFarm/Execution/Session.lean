import WheelFarm.CommandLine.Command
import WheelFarm.Execution.Error
import WheelFarm.Ledger.Operation
import WheelFarm.Ledger.Statistics
import WheelFarm.Ledger.Targets
import WheelFarm.Report.Decode

/-! Commands carried out on an open ledger. What a command did to the ledger before it fails stays
done. -/
namespace WheelFarm.Execution
open CommandLine

structure Setting where
  config : Config := {}
  now : Int
  /-- Whether standard output can be written to. -/
  canPrint : Bool := true
  report : String → Option String

/-- A ledger in use, and the lines that have been printed, the last one first. -/
structure Session where
  ledger : Ledger
  printed : List String := []
  deriving DecidableEq

abbrev Action := ExceptT ExecutionError (StateM Session)

def emit (e : Setting) (line : String) : Action Unit := do
  if e.canPrint then modify fun s => { s with printed := line :: s.printed }
  else throw .output

/-- Prints lines as long as that works. -/
def emitAll (e : Setting) : List String → Action Unit
  | [] => return ()
  | line :: lines => do
    emit e line
    emitAll e lines

def query {α : Type} (read : Ledger → Except LedgerError α) : Action α := do
  match read (← get).ledger with
  | .ok a => return a
  | .error cause => throw (.ledger cause)

def perform (e : Setting) (op : Ledger.Operation) : Action Ledger.Reply := do
  let (reply, ledger) ← query (·.perform e.now op)
  modify fun s => { s with ledger }
  return reply

/-- Performs an operation and tells whether it changed something. -/
def change (e : Setting) (op : Ledger.Operation) : Action Bool := do
  return (← perform e op) = .changed true

/-- Registers ABIs, and tells which of them are new. -/
def register (e : Setting) : List String → Action Unit
  | [] => return ()
  | abi :: abis => do
    if ← change e (.addAbi abi) then emit e s!"registered {abi}"
    register e abis

def statisticsLines (s : Ledger.Statistics) : List String := [
  s!"packages_count: {s.packages}",
  s!"packages_built: {s.packagesBuilt}",
  s!"versions_count: {s.versions}",
  s!"versions_built: {s.versionsBuilt}",
  s!"builds_count: {s.builds}",
  s!"builds_last_hour: {s.buildsLastHour}",
  s!"builds_success: {s.buildsSuccessful}",
  s!"builds_time: {s.time.seconds}s",
  s!"files_count: {s.files}",
  s!"files_size: {s.size.toNat}"]

def targetLine (t : Target) : String := s!"{t.package}\t{t.version}\t{t.abi}"

def readReport (e : Setting) (path : String) : Action BuildReport := do
  match (e.report path).map Report.decode with
  | some (.ok r) => return r
  | _ => throw (.report path)

def execute (e : Setting) : Command → Action Unit
  | .init => register e e.config.abis
  | .addAbi abi => do let _ ← perform e (.addAbi abi)
  | .removeAbi abi => do let _ ← perform e (.removeAbi abi)
  | .listAbis => do emitAll e (← get).ledger.abis.rows
  | .addPackage package skip => do
    if ← change e (.addPackage package skip) then emit e s!"added {package}"
    else emit e s!"{package} already known"
  | .skipPackage package reason => do let _ ← perform e (.skipPackage package reason)
  | .addVersion package version released skip => do
    if ← change e (.addVersion package version (released.map (·.second)) skip) then
      emit e s!"added {package} {version}"
    else emit e s!"{package} {version} already known"
  | .skipVersion package version reason => do
    let _ ← perform e (.skipVersion package version reason)
  | .forgetVersion package version => do
    if let .forgotten builds ← perform e (.forget package version) then
      emit e s!"forgot {builds} build(s) of {package} {version}"
  | .showSerial => do emit e s!"{(← query Ledger.currentSerial).toNat}"
  | .setSerial serial => do let _ ← perform e (.setSerial serial)
  | .listTargets => do emitAll e ((← get).ledger.targets.map targetLine)
  | .commit path => do
    let report ← readReport e path
    if let .recorded build ← perform e (.commit report) then emit e s!"{build}"
  | .showStatistics => do emitAll e (statisticsLines (← query (·.statistics e.now)))

end WheelFarm.Execution
