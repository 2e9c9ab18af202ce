import WheelFarm.Wheel.Name

/-! The configuration: where the ledger is kept, over how many connections at most, and which ABIs a
new ledger starts with. -/
namespace WheelFarm
open Wheel

structure Config where
  /-- The path of the ledger; by default it lies in the user's data directory. -/
  path : Option String := none
  connections : Option UInt32 := none
  abis : List String := []
  deriving DecidableEq, Repr

namespace Config

inductive Objection
  | noConnections
  | emptyAbi
  | universalAbi
  | repeatedAbi (abi : String)
  deriving DecidableEq, Repr

def Objection.setting : Objection → String
  | noConnections => "database.max_connections"
  | emptyAbi | universalAbi | repeatedAbi _ => "build.abis"

def Objection.reason : Objection → String
  | noConnections => "must be at least 1"
  | emptyAbi => "ABI tags cannot be empty"
  | universalAbi => "'none' marks universal wheels and is not a build target"
  | repeatedAbi abi => s!"duplicate ABI tag '{abi}'"

/-- Accepts ABIs that are build targets and have not been seen. -/
def checkAbis (seen : List String) : List String → Except Objection Unit
  | [] => .ok ()
  | abi :: abis =>
    if abi.isEmpty then .error .emptyAbi
    else if abi = Wheel.universalAbi then .error .universalAbi
    else if abi ∈ seen then .error (.repeatedAbi abi)
    else checkAbis (abi :: seen) abis

def validate (c : Config) : Except Objection Unit :=
  if c.connections = some 0 then .error .noConnections else checkAbis [] c.abis

end Config

inductive ConfigError
  /-- A file or a variable cannot be read as settings, or a setting has the wrong type. -/
  | unreadable
  | notFound (path : String)
  | unsupportedFormat (path : String)
  | noDataDirectory
  | invalid (why : Config.Objection)
  deriving DecidableEq, Repr

def ConfigError.message : ConfigError → String
  | unreadable => "could not load configuration"
  | notFound path => s!"configuration file not found: {path}"
  | unsupportedFormat path => s!"unsupported configuration format: {path}"
  | noDataDirectory => "no data directory available; set database.path explicitly"
  | invalid why => s!"invalid configuration for {why.setting}: {why.reason}"

end WheelFarm
