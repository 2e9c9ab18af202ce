import WheelFarm.Ledger.Error
import WheelFarm.Ledger.Schema
import WheelFarm.Report

/-! Committing a build report. Whether the report can be recorded at all is decided before the
ledger is looked at; then the build, its log, its files and their dependencies are recorded
together. A file that is on record already passes to the new build. -/
namespace WheelFarm.Ledger
open Wheel

/-- Accepts files whose names are not empty, have not been seen and carry the declared tags. -/
def checkFiles (seen : List String) : List BuiltFile → Except Malformation Unit
  | [] => .ok ()
  | f :: fs =>
    if f.filename.isEmpty then .error .unnamedFile
    else if f.filename ∈ seen then .error (.duplicateFile f.filename)
    else match f.check with
      | .error e => .error (.tagsDiffer f.filename e)
      | .ok () => checkFiles (f.filename :: seen) fs

def fits (n : Nat) : Bool := n ≤ maxStored

def checkReport (r : BuildReport) : Except Malformation Unit := do
  if r.package.isEmpty || r.version.isEmpty then throw .missingVersion
  if r.abi.isEmpty then throw .missingAbi
  if r.abi = universalAbi then throw .universalRequested
  checkFiles [] r.files
  if !fits r.worker.toNat then throw .workerOutOfRange
  if !fits r.duration.milliseconds then throw .durationOutOfRange
  if !r.files.all fun f => fits f.size.toNat then throw .fileSizeOutOfRange

def BuildRow.ofReport (id now : Int) (r : BuildReport) : BuildRow where
  id := id
  package := r.package
  version := r.version
  worker := r.worker.toNat
  builtAt := now
  milliseconds := r.duration.milliseconds
  success := r.success
  abi := r.abi

/-- The row of a file; the retired spelling of the universal ABI is not stored. -/
def FileRow.ofFile (build : Int) (f : BuiltFile) : FileRow where
  filename := f.filename
  build := build
  size := f.size.toNat
  hash := f.hash
  tags := f.tags.canonical

/-- Puts a file on record for a build, in place of what was on record under its name. -/
def takeOver? (build : Int) (l : Ledger) (f : BuiltFile) : Option Ledger := do
  let l := l.dropFiles fun g => g.filename = f.filename
  let l ← l.insertFile? (.ofFile build f)
  f.dependencies.pairs.foldlM (fun l d => l.insertDependency? ⟨f.filename, d.1, d.2⟩) l

/-- Records a report under the next number. -/
def record? (l : Ledger) (now : Int) (r : BuildReport) : Option (Int × Ledger) := do
  let id ← l.nextBuild?
  let l ← l.insertBuild? (.ofReport id now r)
  let l ← l.insertOutput? ⟨id, r.output⟩
  let l ← r.files.foldlM (takeOver? id) l
  return (id, l)

def commit (l : Ledger) (now : Int) (r : BuildReport) : Except LedgerError (Int × Ledger) :=
  match checkReport r with
  | .error why => .error (.malformedReport why)
  | .ok () =>
    if l.versions.has (r.package, r.version) then
      match l.record? now r with
      | some recorded => .ok recorded
      | none => .error .storage
    else .error (.versionNotFound r.package r.version)

end WheelFarm.Ledger
