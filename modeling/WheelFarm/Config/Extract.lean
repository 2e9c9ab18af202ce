import WheelFarm.Config
import WheelFarm.Config.Value

/-! The configuration that settings make. A section is a mapping, or a list that holds its settings
in their order. Settings that are not known are passed over, and none is converted to another
type. -/
namespace WheelFarm.Config

/-- The value of a setting of a section; the section may be missing, but cannot be another value. -/
def sectionValue? (s : Option Value) (place : Nat) (name : String) : Option (Option Value) :=
  match s with
  | none => some none
  | some (.mapping entries) => some (entries.lookup name)
  | some (.list values) => some values[place]?
  | some _ => none

def Value.text? : Value → Option String
  | text s => some s
  | _ => none

/-- Reads a path, which may be missing or null. -/
def readPath : Option Value → Option (Option String)
  | none | some .null => some none
  | some v => v.text?.map some

/-- Reads a number of connections, which may be missing or null. -/
def readConnections : Option Value → Option (Option UInt32)
  | none | some .null => some none
  | some (.integer n) =>
    if 0 ≤ n ∧ n ≤ 4294967295 then some (some (.ofNat n.toNat)) else none
  | some _ => none

/-- Reads ABIs, which may be missing. -/
def readAbis : Option Value → Option (List String)
  | none => some []
  | some (.list values) => values.mapM Value.text?
  | some _ => none

def ofSettings? (s : Settings) : Option Config := do
  let database := s.lookup "database"
  let build := s.lookup "build"
  return {
    path := ← readPath (← sectionValue? database 0 "path")
    connections := ← readConnections (← sectionValue? database 1 "max_connections")
    abis := ← readAbis (← sectionValue? build 0 "abis") }

end WheelFarm.Config
