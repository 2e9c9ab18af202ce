import WheelFarm.Dependencies
import WheelFarm.Wheel.Name

/-! Wheels as workers report them: the file, the tags declared for it and what it needs when it is
installed. The declared tags are checked against the ones that the filename carries. -/
namespace WheelFarm.Wheel

structure BuiltFile where
  filename : String
  size : UInt64
  hash : String
  tags : Tags
  dependencies : Dependencies := ∅
  deriving DecidableEq

namespace BuiltFile

def ofFilename (filename : String) (size : UInt64) (hash : String) :
    Except WheelError BuiltFile :=
  (WheelName.parse filename).map fun name => { filename, size, hash, tags := name.tags }

def require (f : BuiltFile) (tool name : String) : BuiltFile :=
  { f with dependencies := f.dependencies.require tool name }

def canonicalAbi (f : BuiltFile) : String := Wheel.canonicalAbi f.tags.abi

/-- Whether the wheel is declared to install on every interpreter ABI. -/
def isUniversal (f : BuiltFile) : Bool := f.tags.isUniversal

/-- Each declared tag, the ABI in its one spelling, beside the tag that is expected. -/
def comparisons (declared expected : Tags) : List (Component × String × String) :=
  [(.package, declared.package, expected.package),
    (.version, declared.version, expected.version),
    (.python, declared.python, expected.python),
    (.abi, Wheel.canonicalAbi declared.abi, expected.abi),
    (.platform, declared.platform, expected.platform)]

/-- Accepts the declared tags if they are the ones that the filename carries. -/
def check (f : BuiltFile) : Except WheelError Unit := do
  let name ← WheelName.parse f.filename
  match (comparisons f.tags name.tags).find? fun c => c.2.1 ≠ c.2.2 with
  | some (tag, declared, _) => throw (.tagMismatch f.filename tag declared)
  | none => pure ()

end BuiltFile
end WheelFarm.Wheel
