import WheelFarm.Calendar.Timestamp
import WheelFarm.CommandLine.Command
import WheelFarm.ProjectName
import WheelFarm.Text.Scanner

/-! The grammar of the command line: a tree of commands, the parameters that each of them takes, and
how their values are read. -/
namespace WheelFarm.CommandLine
open Calendar

inductive UsageError
  | unknownArgument
  | unknownCommand
  | missingArgument
  | missingCommand
  | repeatedArgument
  /-- A value is missing, or is empty where that has no meaning. -/
  | missingValue
  /-- A value stands where none is taken. -/
  | surplusValue
  | malformedValue
  /-- A release lies after the last moment that has a date. -/
  | undatedRelease
  | helpRequested
  | versionRequested
  /-- Help is shown because nothing was asked for. -/
  | nothingRequested
  deriving DecidableEq, Repr

inductive Parameter
  | config | verbose | help | programVersion
  | package | version | reason | abi | serial | report
  | skip | released
  deriving DecidableEq, Repr

inductive Value
  | raised
  | text (s : String)
  | serial (n : UInt64)
  | moment (m : Moment)
  deriving DecidableEq

namespace Parameter

def long? : Parameter → Option String
  | config => some "config"
  | verbose => some "verbose"
  | help => some "help"
  | programVersion => some "version"
  | skip => some "skip"
  | released => some "released"
  | _ => none

def short? : Parameter → Option Char
  | config => some 'c'
  | verbose => some 'v'
  | help => some 'h'
  | programVersion => some 'V'
  | _ => none

def takesValue : Parameter → Bool
  | verbose | help | programVersion => false
  | _ => true

/-- Reads a value. Package names are read in their canonical form, and paths are not empty. -/
def read (p : Parameter) (s : String) : Except UsageError Value :=
  match p with
  | config | report => if s.isEmpty then .error .missingValue else .ok (.text s)
  | package => .ok (.text (ProjectName.canonicalize s))
  | serial =>
    match Text.unsigned? s.toList with
    | some n =>
      if n < 18446744073709551616 then .ok (.serial (.ofNat n)) else .error .malformedValue
    | none => .error .malformedValue
  | released =>
    match Timestamp.parse s with
    | .ok m => .ok (.moment m)
    | .error .malformed => .error .malformedValue
    | .error .afterLastSecond => .error .undatedRelease
  | _ => .ok (.text s)

end Parameter

/-- The values that have been given, the last one first. -/
abbrev Values := List (Parameter × Value)

namespace Values

def has (vs : Values) (p : Parameter) : Bool := vs.any fun v => v.1 = p

def text? (vs : Values) (p : Parameter) : Option String :=
  match vs.lookup p with
  | some (.text s) => some s
  | _ => none

def serial? (vs : Values) : Option UInt64 :=
  match vs.lookup .serial with
  | some (.serial n) => some n
  | _ => none

def released? (vs : Values) : Option Moment :=
  match vs.lookup .released with
  | some (.moment m) => some m
  | _ => none

end Values

inductive Group
  | abi | package | version | serial
  deriving DecidableEq, Repr

inductive Verb
  | init
  | addAbi | removeAbi | listAbis
  | addPackage | skipPackage
  | addVersion | skipVersion | forgetVersion
  | showSerial | setSerial
  | listTargets | commit | showStatistics
  deriving DecidableEq, Repr

/-- The arguments that a command needs, in their order. -/
def Verb.arguments : Verb → List Parameter
  | addAbi | removeAbi => [.abi]
  | addPackage => [.package]
  | skipPackage => [.package, .reason]
  | addVersion | forgetVersion => [.package, .version]
  | skipVersion => [.package, .version, .reason]
  | setSerial => [.serial]
  | commit => [.report]
  | init | listAbis | showSerial | listTargets | showStatistics => []

/-- The command with its values, unless one of its arguments is missing. -/
def Verb.command? (v : Verb) (vs : Values) : Option Command :=
  match v with
  | init => some .init
  | addAbi => return .addAbi (← vs.text? .abi)
  | removeAbi => return .removeAbi (← vs.text? .abi)
  | listAbis => some .listAbis
  | addPackage => return .addPackage (← vs.text? .package) (vs.text? .skip)
  | skipPackage => return .skipPackage (← vs.text? .package) (← vs.text? .reason)
  | addVersion => do
    return .addVersion (← vs.text? .package) (← vs.text? .version) vs.released? (vs.text? .skip)
  | skipVersion => do
    return .skipVersion (← vs.text? .package) (← vs.text? .version) (← vs.text? .reason)
  | forgetVersion => return .forgetVersion (← vs.text? .package) (← vs.text? .version)
  | showSerial => some .showSerial
  | setSerial => return .setSerial (← vs.serial?)
  | listTargets => some .listTargets
  | commit => return .commit (← vs.text? .report)
  | showStatistics => some .showStatistics

/-- A place in the tree of commands. -/
inductive Level
  | top
  | group (g : Group)
  | verb (v : Verb)
  deriving DecidableEq, Repr

namespace Level

def commands : Level → List (String × Level)
  | top => [
      ("init", .verb .init), ("abi", .group .abi), ("package", .group .package),
      ("version", .group .version), ("serial", .group .serial), ("targets", .verb .listTargets),
      ("commit", .verb .commit), ("stats", .verb .showStatistics)]
  | group .abi => [
      ("add", .verb .addAbi), ("remove", .verb .removeAbi), ("list", .verb .listAbis)]
  | group .package => [("add", .verb .addPackage), ("skip", .verb .skipPackage)]
  | group .version => [
      ("add", .verb .addVersion), ("skip", .verb .skipVersion), ("forget", .verb .forgetVersion)]
  | group .serial => [("get", .verb .showSerial), ("set", .verb .setSerial)]
  | verb _ => []

def helpCommand : String := "help"

/-- Whether a command has the name; wherever there are commands, one of them shows help. -/
def hasCommand (l : Level) (name : String) : Bool :=
  !l.commands.isEmpty && (name == helpCommand || (l.commands.lookup name).isSome)

def arguments : Level → List Parameter
  | verb v => v.arguments
  | _ => []

def options (l : Level) : List Parameter :=
  [.config, .verbose, .help] ++ match l with
    | top => [.programVersion]
    | verb .addPackage => [.skip]
    | verb .addVersion => [.released, .skip]
    | _ => []

def long? (l : Level) (name : String) : Option Parameter :=
  l.options.find? fun p => p.long? == some name

def short? (l : Level) (name : Char) : Option Parameter :=
  l.options.find? fun p => p.short? == some name

end Level
end WheelFarm.CommandLine
