import WheelFarm.Wheel.Error

/-! What the ledger refuses, and the words in which it says so. -/
namespace WheelFarm
open Wheel

namespace Ledger

/-- The stored integers that can be out of range. -/
inductive Datum
  | serial | workerId | buildDate | buildDuration | releaseDate | fileSize
  deriving DecidableEq, Repr

def Datum.label : Datum → String
  | serial => "serial"
  | workerId => "worker id"
  | buildDate => "build date"
  | buildDuration => "build duration"
  | releaseDate => "release date"
  | fileSize => "file size"

inductive Malformation
  | missingVersion
  | missingAbi
  | universalRequested
  | unnamedFile
  | duplicateFile (filename : String)
  | tagsDiffer (filename : String) (cause : WheelError)
  | workerOutOfRange
  | durationOutOfRange
  | fileSizeOutOfRange
  deriving DecidableEq, Repr

def Malformation.reason : Malformation → String
  | missingVersion => "missing package or version"
  | missingAbi => "missing ABI tag"
  | universalRequested => "the universal ABI cannot be requested"
  | unnamedFile => "file without a filename"
  | duplicateFile filename => s!"duplicate file: {filename}"
  | tagsDiffer filename _ => s!"tags do not match filename: {filename}"
  | workerOutOfRange => "worker id out of range"
  | durationOutOfRange => "duration out of range"
  | fileSizeOutOfRange => "file size out of range"

end Ledger

inductive LedgerError
  /-- Storage failed or refused a row; the ledger is as it was. -/
  | storage
  /-- The storage at hand was not laid out by this program. -/
  | layout
  | packageNotFound (package : String)
  | versionNotFound (package version : String)
  | buildNotFound (build : Int)
  | packageInUse (package : String)
  | reservedAbi (abi : String)
  | malformedReport (why : Ledger.Malformation)
  | serialRegression (current requested : Nat)
  | invalidData (what : Ledger.Datum)
  deriving DecidableEq, Repr

namespace LedgerError

def message : LedgerError → String
  | storage => "database error"
  | layout => "database migration error"
  | packageNotFound package => s!"package not found: ({package})"
  | versionNotFound package version => s!"version not found: ({package}, {version})"
  | buildNotFound build => s!"build not found: ({build})"
  | packageInUse package => s!"package still has versions: ({package})"
  | reservedAbi abi => s!"reserved ABI tag cannot be a build target: ({abi})"
  | malformedReport why => s!"malformed build report: {why.reason}"
  | serialRegression current requested =>
    s!"serial regression: {requested} is behind the current serial {current}"
  | invalidData what => s!"invalid ledger data: {what.label}"

/-- Whether the same request may succeed when it is made again: only storage recovers by itself. -/
def isRetryable : LedgerError → Bool
  | storage => true
  | _ => false

end LedgerError
end WheelFarm
