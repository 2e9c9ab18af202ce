import WheelFarm.Duration
import WheelFarm.Ledger.Error
import WheelFarm.Ledger.Targets

/-! A summary of the catalog and of the builds on record. -/
namespace WheelFarm.Ledger

structure Statistics where
  /-- Packages that are not skipped. -/
  packages : Nat
  /-- Packages with a wheel on record. -/
  packagesBuilt : Nat
  /-- Versions that are not skipped, nor their packages. -/
  versions : Nat
  /-- Versions with a build on record. -/
  versionsBuilt : Nat
  builds : Nat
  buildsLastHour : Nat
  buildsSuccessful : Nat
  /-- The time that all builds took together. -/
  time : Duration
  files : Nat
  /-- The size of all wheels together, in bytes. -/
  size : UInt64
  deriving DecidableEq

/-- A sum of stored integers, none of them negative. The sum has to be one that can be stored. -/
def storedSum (ns : List Int) : Except LedgerError UInt64 :=
  let total := ns.foldl (· + ·) 0
  if total ≤ maxStored then .ok (.ofNat total.toNat) else .error .storage

def owners (l : Ledger) : List BuildRow := l.builds.rows.filter fun b => !(l.owned b.id).isEmpty

def statistics (l : Ledger) (now : Int) : Except LedgerError Statistics := do
  let milliseconds ← storedSum (l.builds.rows.map (·.milliseconds))
  let size ← storedSum (l.files.rows.map (·.size))
  return {
    packages := l.packages.rows.countP (·.skip.isNone)
    packagesBuilt := (l.owners.map (·.package)).eraseDups.length
    versions := l.versions.rows.countP l.isOpen
    versionsBuilt := (l.builds.rows.map fun b => (b.package, b.version)).eraseDups.length
    builds := l.builds.rows.length
    buildsLastHour := l.builds.rows.countP fun b => now - 3600 < b.builtAt
    buildsSuccessful := l.builds.rows.countP (·.success)
    time := .ofMilliseconds milliseconds
    files := l.files.rows.length
    size := size }

end WheelFarm.Ledger
