import WheelFarm.Config.Extract
import WheelFarm.Config.Json
import WheelFarm.Config.Toml
import WheelFarm.Config.Variable
import WheelFarm.Config.Yaml

/-! Loading the configuration: the defaults, over them a file whose format its name tells, and over
that the environment. It is the same whatever reads the texts of files and variables. -/
namespace WheelFarm

namespace Config

inductive Format
  | toml | yaml | json
  deriving DecidableEq, Repr

/-- The part of a path's last name behind its last point, unless the point begins the name. -/
def extension? (path : String) : Option String := do
  let name := (Text.pieces '/' path.toList).getLast?.getD []
  let rest := name.reverse.dropWhile (· != '.')
  guard (1 < rest.length && name != ['.', '.'])
  return String.ofList (name.drop rest.length)

/-- The format that a path's extension tells, in large or small letters. -/
def Format.ofPath? (path : String) : Option Format := do
  match (← extension? path).toLower with
  | "toml" => some .toml
  | "yaml" | "yml" => some .yaml
  | "json" => some .json
  | _ => none

def Format.read? : Format → String → Option Settings
  | toml => ofToml?
  | yaml => ofYaml?
  | json => ofJson?

/-- What reads texts: the settings in the text of a file, if it has its format, and the value that
the text of a variable stands for. -/
structure Readers where
  file? : Format → String → Option Settings
  value : String → Value

/-- The readers that the program runs with. -/
def Readers.builtin : Readers := ⟨Format.read?, Variable.read⟩

/-- The settings in a file, of which the contents are known if it is there. -/
def fileSettings (readers : Readers) (path : String) (contents : Option String) :
    Except ConfigError Settings :=
  match contents, Format.ofPath? path with
  | none, _ => .error (.notFound path)
  | some _, none => .error (.unsupportedFormat path)
  | some text, some format =>
    match readers.file? format text with
    | some s => .ok s
    | none => .error .unreadable

def ofSettings (s : Settings) : Except ConfigError Config :=
  match ofSettings? s with
  | none => .error .unreadable
  | some c =>
    match c.validate with
    | .ok () => .ok c
    | .error why => .error (.invalid why)

/-- Loads the configuration. `contents` tells what is in a regular file, if there is one. -/
def load (readers : Readers) (contents : String → Option String) (path : Option String)
    (environment : List (String × String)) : Except ConfigError Config := do
  let below ← match path with
    | some path => fileSettings readers path (contents path)
    | none => pure []
  ofSettings (below.overlay (ofVariables readers.value environment))

def below (directory name : String) : String :=
  if directory.endsWith "/" then directory ++ name else directory ++ "/" ++ name

/-- The user's data directory: the one that the environment names, if it does so from the root on,
and else the usual one in the home directory. -/
def dataDirectory? (environment : List (String × String)) : Option String :=
  match environment.lookup "XDG_DATA_HOME" with
  | some d =>
    if d.startsWith "/" then some d else inHome
  | none => inHome
where
  inHome : Option String :=
    match environment.lookup "HOME" with
    | some home => if home.isEmpty then none else some (below home ".local/share")
    | none => none

def location (c : Config) (environment : List (String × String)) : Except ConfigError String :=
  match c.path, dataDirectory? environment with
  | some path, _ => .ok path
  | none, some directory => .ok (below directory "wheelhouse/wheelhouse.db")
  | none, none => .error .noDataDirectory

end Config
end WheelFarm
