/-! Values of settings before their types are known. Settings come in layers: a later layer goes
before an earlier one, setting by setting. -/
namespace WheelFarm.Config

/-- A value of a setting. No setting takes a number with a fraction, so that one is not kept. -/
inductive Value
  | null
  | boolean (b : Bool)
  | integer (n : Int)
  | fraction
  | text (s : String)
  | list (values : List Value)
  | mapping (entries : List (String × Value))
  deriving Inhabited

abbrev Settings := List (String × Value)

namespace Settings

/-- The settings with one more or another value under a name. -/
def put (s : Settings) (name : String) (v : Value) : Settings :=
  match s with
  | [] => [(name, v)]
  | e :: s => if e.1 = name then (name, v) :: s else e :: put s name v

end Settings

def Value.settings : Value → Settings
  | mapping s => s
  | _ => []

mutual

/-- A value laid over an earlier one: mappings are merged, and other values are replaced. -/
def Value.over (above below : Value) : Value :=
  match above with
  | .mapping entries => .mapping (entriesOver entries below.settings)
  | v => v

def entriesOver (above : List (String × Value)) (below : Settings) : Settings :=
  match above with
  | [] => below
  | e :: es => entriesOver es (Settings.put below e.1 (entryOver e (below.lookup e.1)))

/-- The value of an entry, laid over the one that its name has so far, if any. -/
def entryOver (above : String × Value) (below : Option Value) : Value :=
  match above, below with
  | (_, v), none => v
  | (_, v), some below => v.over below

end

namespace Settings

/-- Settings with later ones laid over them. -/
def overlay (below above : Settings) : Settings := entriesOver above below

def nest (v : Value) : List String → Settings
  | [] => v.settings
  | [name] => [(name, v)]
  | name :: name' :: names => [(name, .mapping (nest v (name' :: names)))]

end Settings
end WheelFarm.Config
