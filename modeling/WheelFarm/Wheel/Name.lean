import WheelFarm.Text.Pieces
import WheelFarm.Wheel.Error

/-! Wheel filenames: five tags, and a build number that may stand after the version, joined by
hyphens before the extension. The universal ABI marks wheels that install on every interpreter; its
retired spelling is read as the same tag, and up to that reading and writing a name undo each
other. -/
namespace WheelFarm.Wheel

/-- The ABI tag of a wheel that installs on every interpreter ABI. -/
def universalAbi : String := "none"

/-- The spelling of the universal tag that older wheels carry. -/
def retiredUniversalAbi : String := "noabi"

def canonicalAbi (abi : String) : String :=
  if abi = retiredUniversalAbi then universalAbi else abi

structure Tags where
  package : String
  version : String
  python : String
  abi : String
  platform : String
  deriving DecidableEq, Repr

/-- The tags with the universal ABI in its one spelling. -/
def Tags.canonical (t : Tags) : Tags := { t with abi := canonicalAbi t.abi }

/-- Whether a wheel with these tags installs on every interpreter ABI. -/
def Tags.isUniversal (t : Tags) : Bool := canonicalAbi t.abi == universalAbi

structure WheelName where
  tags : Tags
  build : Option String := none
  deriving DecidableEq, Repr

namespace WheelName

def extension : List Char := ['.', 'w', 'h', 'l']

/-- The name made of components that are all present, or the first empty one. -/
def ofComponents (filename : String) (package version : List Char) (build : Option (List Char))
    (python abi platform : List Char) : Except WheelError WheelName :=
  let named : List (Component × List Char) :=
    [(.package, package), (.version, version), (.python, python), (.abi, abi),
      (.platform, platform)] ++ (build.map fun b => (Component.build, b)).toList
  match named.find? (·.2.isEmpty) with
  | some (component, _) => .error (.emptyComponent filename component)
  | none => .ok {
      tags := {
        package := String.ofList package
        version := String.ofList version
        python := String.ofList python
        abi := canonicalAbi (String.ofList abi)
        platform := String.ofList platform }
      build := build.map String.ofList }

def parse (filename : String) : Except WheelError WheelName :=
  match Text.dropEnd? extension filename.toList with
  | none => .error (.notAWheel filename)
  | some stem =>
    match Text.pieces '-' stem with
    | [package, version, python, abi, platform] =>
      ofComponents filename package version none python abi platform
    | [package, version, build, python, abi, platform] =>
      ofComponents filename package version (some build) python abi platform
    | found => .error (.componentCount filename found.length)

/-- The components in the order in which the filename has them. -/
def components (n : WheelName) : List String :=
  [n.tags.package, n.tags.version] ++ n.build.toList ++
    [n.tags.python, n.tags.abi, n.tags.platform]

/-- The filename that says this. -/
def text (n : WheelName) : String :=
  String.ofList (Text.join '-' (n.components.map String.toList) ++ extension)

def isUniversal (n : WheelName) : Bool := n.tags.abi == universalAbi

end WheelName
end WheelFarm.Wheel
