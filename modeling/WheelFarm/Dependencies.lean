import WheelFarm.Table

/-! Install-time dependencies of a wheel: the tools that provide them, each with the set of names
that are required from it. -/
namespace WheelFarm

instance : Keyed String String := ⟨id⟩

abbrev NameSet := Table String

structure Requirement where
  tool : String
  names : NameSet
  deriving DecidableEq

instance : Keyed Requirement String := ⟨Requirement.tool⟩

abbrev Dependencies := Table Requirement

namespace Dependencies

def names (d : Dependencies) (tool : String) : NameSet :=
  match d.find? tool with
  | some r => r.names
  | none => ∅

def require (d : Dependencies) (tool name : String) : Dependencies :=
  d.put ⟨tool, (names d tool).put name⟩

/-- Every tool with every name that is required from it. -/
def pairs (d : Dependencies) : List (String × String) :=
  d.rows.flatMap fun r => r.names.rows.map fun n => (r.tool, n)

end Dependencies
end WheelFarm
