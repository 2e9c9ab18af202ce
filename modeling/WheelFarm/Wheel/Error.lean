/-! What can be wrong with a wheel's filename, or with tags declared beside it. -/
namespace WheelFarm.Wheel

inductive Component
  | package | version | build | python | abi | platform
  deriving DecidableEq, Repr

def Component.label : Component → String
  | package => "package"
  | version => "version"
  | build => "build"
  | python => "python"
  | abi => "abi"
  | platform => "platform"

inductive WheelError
  | notAWheel (filename : String)
  | componentCount (filename : String) (found : Nat)
  | emptyComponent (filename : String) (component : Component)
  | tagMismatch (filename : String) (tag : Component) (declared : String)
  deriving DecidableEq, Repr

def WheelError.message : WheelError → String
  | notAWheel filename => s!"not a wheel filename: {filename}"
  | componentCount filename found =>
    s!"wheel filename '{filename}' has {found} components, expected 5 or 6"
  | emptyComponent filename component =>
    s!"wheel filename '{filename}' has an empty {component.label} tag"
  | tagMismatch filename tag declared =>
    s!"wheel '{filename}' declares {tag.label} tag '{declared}' which its filename does not carry"

end WheelFarm.Wheel
