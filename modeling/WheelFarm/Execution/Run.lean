import WheelFarm.CommandLine.Parse
import WheelFarm.Config.Load
import WheelFarm.Execution.Session
import WheelFarm.Host

/-! Running a command on a host: its configuration is loaded, its ledger opened, and the command
carried out on it. The ledger's file is created when it is not there yet, whatever becomes of the
command. -/
namespace WheelFarm.Execution
open CommandLine Host

structure Circumstances where
  now : Int
  input : String := ""
  canPrint : Bool := true
  deriving DecidableEq

structure Outcome where
  output : String := ""
  error : Option ExecutionError := none
  deriving DecidableEq

/-- Whether a path means standard input: a hyphen, behind which no step leads anywhere. -/
def isStandardInput (path : String) : Bool :=
  match Text.pieces '/' path.toList with
  | first :: rest => first == ['-'] && rest.all fun step => step.isEmpty || step == ['.']
  | [] => false

def reportText (h : Host) (c : Circumstances) (path : String) : Option String :=
  if isStandardInput path then some c.input else h.text? path

/-- The paths under which a ledger is opened that is kept nowhere. -/
def isVolatile (location : String) : Bool := location.isEmpty || location == ":memory:"

/-- The ledger under a path. An empty file is a fresh ledger. -/
def ledgerAt (h : Host) (location : String) : Except LedgerError Ledger :=
  match h.node? (h.resolve location) with
  | none => if endsInDirectory location then .error .storage else .ok {}
  | some (.ledger l) => .ok l
  | some (.text contents) => if contents.isEmpty then .ok {} else .error .storage
  | some .directory => .error .storage

/-- Opens the ledger, in a file whose directories are made as needed. -/
def openLedger (h : Host) (location : String) : Host × Except ExecutionError Ledger :=
  if isVolatile location then (h, .ok {})
  else match h.makeDirectories? (steps h.directory location).tail with
    | none => (h, .error (.opening location none))
    | some h =>
      match ledgerAt h location with
      | .ok l => (h, .ok l)
      | .error cause => (h, .error (.opening location (some cause)))

def keep (h : Host) (location : String) (l : Ledger) : Host :=
  if isVolatile location then h else h.put (h.resolve location) (.ledger l)

/-- The configuration, and the path of the ledger. -/
def configure (h : Host) (i : Invocation) : Except ConfigError (Config × String) := do
  let config ← Config.load .builtin h.text? i.config h.environment
  return (config, ← config.location h.environment)

def run (h : Host) (c : Circumstances) (i : Invocation) : Host × Outcome :=
  match configure h i with
  | .error cause => (h, { error := some (.config cause) })
  | .ok (config, location) =>
    match openLedger h location with
    | (h, .error e) => (h, { error := some e })
    | (h, .ok ledger) =>
      let e : Setting := { config, now := c.now, canPrint := c.canPrint, report := reportText h c }
      let (result, session) := (execute e i.command).run.run { ledger }
      let output := String.join (session.printed.reverse.map (· ++ "\n"))
      let error := match result with
        | .ok () => none
        | .error e => some e
      (keep h location session.ledger, { output, error })

/-- The variable that names a configuration file for arguments that name none. -/
def configVariable : String := "WHEELHOUSE_CONFIG"

def parseArguments (h : Host) (arguments : List String) : Except UsageError Invocation :=
  CommandLine.parse arguments (h.environment.lookup configVariable)

end WheelFarm.Execution
