import WheelFarm.Ledger

/-! The schema: rows are stored only where the ledger's constraints admit them, and a row that is
dropped takes along what refers to it. A write that a constraint refuses has no result. -/
namespace WheelFarm.Ledger
open Wheel

/-- The tags that cannot be registered as build targets. -/
def isReserved (abi : String) : Bool := abi == universalAbi || abi.isEmpty

def insertPackage? (l : Ledger) (p : Package) : Option Ledger := do
  let packages ← l.packages.insert? p
  return { l with packages }

/-- Versions belong to packages of the catalog. -/
def insertVersion? (l : Ledger) (v : Version) : Option Ledger := do
  guard (l.packages.has v.package)
  let versions ← l.versions.insert? v
  return { l with versions }

def insertAbi? (l : Ledger) (abi : String) : Option Ledger := do
  guard (!isReserved abi)
  let abis ← l.abis.insert? abi
  return { l with abis }

/-- Builds belong to versions of the catalog. -/
def insertBuild? (l : Ledger) (b : BuildRow) : Option Ledger := do
  guard (0 ≤ b.milliseconds)
  guard (l.versions.has (b.package, b.version))
  let builds ← l.builds.insert? b
  return { l with builds, lastBuild := b.id }

def insertOutput? (l : Ledger) (o : OutputRow) : Option Ledger := do
  guard (l.builds.has o.build)
  let outputs ← l.outputs.insert? o
  return { l with outputs }

def insertFile? (l : Ledger) (f : FileRow) : Option Ledger := do
  guard (0 ≤ f.size)
  guard (l.builds.has f.build)
  let files ← l.files.insert? f
  return { l with files }

def insertDependency? (l : Ledger) (d : DependencyRow) : Option Ledger := do
  guard (l.files.has d.filename)
  let dependencies ← l.dependencies.insert? d
  return { l with dependencies }

/-- The number of the next build, unless numbers have run out. -/
def nextBuild? (l : Ledger) : Option Int :=
  if l.lastBuild < maxStored then some (l.lastBuild + 1) else none

/-- Drops files, with their dependencies. -/
def dropFiles (l : Ledger) (gone : FileRow → Bool) : Ledger :=
  let files := l.files.filter fun f => !gone f
  { l with files, dependencies := l.dependencies.filter fun d => files.has d.filename }

/-- Drops builds, with their logs and files. -/
def dropBuilds (l : Ledger) (gone : BuildRow → Bool) : Ledger :=
  let builds := l.builds.filter fun b => !gone b
  let l := { l with builds, outputs := l.outputs.filter fun o => builds.has o.build }
  l.dropFiles fun f => !builds.has f.build

/-- Drops a version, with its builds. -/
def dropVersion (l : Ledger) (package version : String) : Ledger :=
  let versions := l.versions.filter fun v => !(v.package = package ∧ v.version = version)
  let l := { l with versions }
  l.dropBuilds fun b => b.package = package ∧ b.version = version

end WheelFarm.Ledger
