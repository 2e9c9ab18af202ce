import WheelFarm.Calendar

/-! What the command line asks for. -/
namespace WheelFarm.CommandLine
open Calendar

inductive Command
  /-- Creates the ledger and registers the configured ABIs. -/
  | init
  | addAbi (abi : String)
  | removeAbi (abi : String)
  | listAbis
  | addPackage (package : String) (skip : Option String)
  | skipPackage (package reason : String)
  | addVersion (package version : String) (released : Option Moment) (skip : Option String)
  | skipVersion (package version reason : String)
  | forgetVersion (package version : String)
  | showSerial
  | setSerial (serial : UInt64)
  | listTargets
  /-- Commits the report in a file, or on standard input. -/
  | commit (report : String)
  | showStatistics
  deriving DecidableEq

structure Invocation where
  command : Command
  config : Option String := none
  verbose : Bool := false
  deriving DecidableEq

end WheelFarm.CommandLine
