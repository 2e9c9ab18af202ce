import Std.Time.DateTime.Timestamp
import WheelFarm.Execution.Run
import WheelFarm.Ledger.Snapshot

/-! The program. It takes in what a command may need of the real host, runs the command, and puts
back the ledger. -/
namespace WheelFarm.Main
open CommandLine Execution

/-- What lies under a path. A file that is no text is told by a character that no ledger has. -/
def look (path : String) : IO (Option Host.Node) := do
  try
    let text ← IO.FS.readFile path
    return some (match Ledger.Snapshot.read? text with
      | some l => .ledger l
      | none => .text text)
  catch
    | .noFileOrDirectory .. => return none
    | .inappropriateType .. => return some .directory
    | _ => return some (.text "\x00")

def environment : IO (List (String × String)) := do
  let text ← IO.FS.readFile "/proc/self/environ"
  return (Text.pieces '\x00' text.toList).filterMap fun v =>
    if v.contains '=' then
      some (String.ofList (v.takeWhile (· != '=')), String.ofList ((v.dropWhile (· != '=')).tail))
    else none

def gather (h : Host) (path : String) : IO Host := do
  match ← look path with
  | some node => return h.put (h.resolve path) node
  | none => return h

/-- Takes in the directories of a path, and what lies under it. Its steps come last first. -/
def gatherAll (h : Host) : List (List Char) → IO Host
  | [] => return h
  | step :: steps => do gather (← gatherAll h steps) (Host.absolute (step :: steps))

def namedFiles (i : Invocation) : List String :=
  i.config.toList ++ match i.command with
    | .commit path => if isStandardInput path then [] else [path]
    | _ => []

def takesInput (i : Invocation) : Bool :=
  match i.command with
  | .commit path => isStandardInput path
  | _ => false

/-- Everything that can be read from standard input. -/
partial def readAll (input : IO.FS.Stream) (read : String) : IO String := do
  let line ← input.getLine
  if line.isEmpty then return read else readAll input (read ++ line)

/-- An error with the errors behind it. -/
def report : ExecutionError → List String
  | .config cause => [ExecutionError.message (.config cause), cause.message]
  | .opening location cause =>
    ExecutionError.message (.opening location cause) :: (cause.map (·.message)).toList
  | .ledger cause => [ExecutionError.message (.ledger cause), cause.message]
  | e => [e.message]

def store (h : Host) (location : String) : IO Unit := do
  let path := h.resolve location
  if let some (.ledger l) := h.node? path then
    IO.FS.createDirAll (Host.absolute (Host.steps h.directory location).tail)
    IO.FS.writeFile path (Ledger.Snapshot.write l)

def runHere (i : Invocation) (h : Host) : IO UInt32 := do
  let h ← (namedFiles i).foldlM gather h
  let h ← match configure h i with
    | .ok (_, location) => gatherAll h (Host.steps h.directory location)
    | .error _ => pure h
  let input ←
    if takesInput i then readAll (← IO.getStdin) "" else pure ""
  let now := (← Std.Time.Timestamp.now).toSecondsSinceUnixEpoch.val
  let (after, outcome) := run h { now, input } i
  if let .ok (_, location) := configure h i then store after location
  IO.print outcome.output
  match outcome.error with
  | none => return 0
  | some e =>
    (report e).forM fun line => IO.eprintln line
    return 1

end WheelFarm.Main

open WheelFarm in
def main (arguments : List String) : IO UInt32 := do
  let h : Host := {
    environment := ← Main.environment
    directory := (← IO.currentDir).toString }
  match Execution.parseArguments h arguments with
  | .ok i => Main.runHere i h
  | .error .helpRequested | .error .nothingRequested | .error .versionRequested => return 0
  | .error _ => return 2
