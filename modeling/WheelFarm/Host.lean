import WheelFarm.Ledger
import WheelFarm.Text.Pieces

/-! The host on which commands run: its environment variables, the directory in which they run, and
what lies under the paths of its files. -/
namespace WheelFarm

namespace Host

inductive Node
  | directory
  | text (contents : String)
  | ledger (l : Ledger)
  deriving DecidableEq

/-- A path from the root, without steps that lead nowhere or back, and what lies there. -/
structure Entry where
  path : String
  node : Node
  deriving DecidableEq

instance : Keyed Entry String := ⟨Entry.path⟩

/-- Takes a step of a path; the steps before it come last first. -/
def walk (taken : List (List Char)) (step : List Char) : List (List Char) :=
  if step.isEmpty || step == ['.'] then taken
  else if step == ['.', '.'] then taken.tail
  else step :: taken

/-- The steps of a path from the root, the last one first. -/
def steps (directory path : String) : List (List Char) :=
  let start := if path.startsWith "/" then [] else (Text.pieces '/' directory.toList).foldl walk []
  (Text.pieces '/' path.toList).foldl walk start

/-- The path from the root with these steps, which come last first. -/
def absolute (steps : List (List Char)) : String :=
  String.ofList ('/' :: Text.join '/' steps.reverse)

/-- Whether only a directory can be meant by a path. -/
def endsInDirectory (path : String) : Bool :=
  match (Text.pieces '/' path.toList).reverse with
  | last :: _ :: _ => last.isEmpty || last == ['.']
  | _ => false

end Host

structure Host where
  environment : List (String × String) := []
  directory : String := "/"
  entries : Table Host.Entry := ∅
  deriving DecidableEq

namespace Host

def node? (h : Host) (path : String) : Option Node :=
  if path = "/" then some .directory else (h.entries.find? path).map Entry.node

def put (h : Host) (path : String) (node : Node) : Host :=
  { h with entries := h.entries.put { path, node } }

/-- The path from the root that a path means here. -/
def resolve (h : Host) (path : String) : String := absolute (steps h.directory path)

def text? (h : Host) (path : String) : Option String :=
  if endsInDirectory path then none
  else match h.node? (h.resolve path) with
    | some (.text contents) => some contents
    | _ => none

/-- Makes a path a directory, with the directories around it; not where something else lies. The
steps of the path come last first. -/
def makeDirectories? (h : Host) : List (List Char) → Option Host
  | [] => some h
  | step :: steps => do
    let h ← h.makeDirectories? steps
    let path := absolute (step :: steps)
    match h.node? path with
    | none => return h.put path .directory
    | some .directory => return h
    | some _ => none

end Host
end WheelFarm
