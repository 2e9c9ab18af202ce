import WheelFarm.Dependencies
import WheelFarm.Wheel.Name

/-! The ledger: the catalog of packages and versions that are to be built, the ABIs to build them
for, and what every attempt at a build left behind. -/
namespace WheelFarm
open Wheel

namespace Ledger

/-- A package of the catalog. Any skip reason, an empty one too, keeps it from being built. -/
structure Package where
  name : String
  skip : Option String := none
  deriving DecidableEq, Repr

/-- A version of a package, with the second of its release. -/
structure Version where
  package : String
  version : String
  released : Int
  skip : Option String := none
  deriving DecidableEq, Repr

/-- An attempt at a build, as it is stored. The ABI is the one that was asked for. -/
structure BuildRow where
  id : Int
  package : String
  version : String
  worker : Int
  builtAt : Int
  milliseconds : Int
  success : Bool
  abi : String
  deriving DecidableEq, Repr

/-- The log of a build; logs are long and seldom read, so they have a table of their own. -/
structure OutputRow where
  build : Int
  text : String
  deriving DecidableEq, Repr

/-- A wheel on record and the build that owns it. -/
structure FileRow where
  filename : String
  build : Int
  size : Int
  hash : String
  tags : Tags
  deriving DecidableEq, Repr

structure DependencyRow where
  filename : String
  tool : String
  name : String
  deriving DecidableEq, Repr

instance : Keyed Package String := ⟨Package.name⟩
instance : Keyed Version (String × String) := ⟨fun v => (v.package, v.version)⟩
instance : Keyed BuildRow Int := ⟨BuildRow.id⟩
instance : Keyed OutputRow Int := ⟨OutputRow.build⟩
instance : Keyed FileRow String := ⟨FileRow.filename⟩
instance : Keyed DependencyRow (String × String × String) :=
  ⟨fun d => (d.filename, d.tool, d.name)⟩

/-- The largest integer that can be stored. -/
def maxStored : Int := 9223372036854775807

end Ledger

/-- The whole ledger. A ledger is fresh when it has no rows; it then starts at serial 0, and its
first build has number 1. -/
structure Ledger where
  packages : Table Ledger.Package := ∅
  versions : Table Ledger.Version := ∅
  /-- The ABIs that every version is to be built for. -/
  abis : Table String := ∅
  builds : Table Ledger.BuildRow := ∅
  outputs : Table Ledger.OutputRow := ∅
  files : Table Ledger.FileRow := ∅
  dependencies : Table Ledger.DependencyRow := ∅
  /-- How far the index's feed of changes has been taken in. -/
  serial : Int := 0
  /-- The number of the last build that was recorded, forgotten ones included. -/
  lastBuild : Int := 0
  deriving DecidableEq

namespace Ledger

instance : Inhabited Ledger := ⟨{}⟩

/-- The builds of a version, oldest first. -/
def buildRows (l : Ledger) (package version : String) : List BuildRow :=
  l.builds.rows.filter fun b => b.package = package ∧ b.version = version

def owned (l : Ledger) (build : Int) : List FileRow :=
  l.files.rows.filter fun f => f.build = build

end Ledger
end WheelFarm
