import WheelFarm.Config.Value
import WheelFarm.Json.Reader

/-! Settings in JSON files. Of settings with one name the last one counts. -/
namespace WheelFarm.Config
open Json Reader

/-- The value of a number. A negative zero is not a whole number. -/
def numeralValue (n : Numeral) : Value :=
  if n.plain then
    if n.negative then
      if 0 < n.digits ∧ n.digits ≤ 9223372036854775808 then .integer (-(n.digits : Int))
      else .fraction
    else if n.digits < 18446744073709551616 then .integer n.digits else .fraction
  else .fraction

def jsonScalar : Reader Value := do
  match ← peek with
  | some .null => drop; return .null
  | some (.bool b) => drop; return .boolean b
  | some (.string _) => return .text (← Reader.string)
  | some (.number _) => return numeralValue (← numeral)
  | t => throw (refuse t)

/-- A value in which lists and mappings lie so deep at most. -/
def jsonValue : Nat → Reader Value
  | 0 => jsonScalar
  | depth + 1 => do
    match ← peek with
    | some .openBracket => return .list (← Reader.array (jsonValue depth))
    | some .openBrace =>
      drop
      let entries ← members (fun name s => do
        colon
        return Settings.put s name (← jsonValue depth)) []
      closing .closeBrace
      return .mapping entries
    | _ => jsonScalar

/-- The settings of a JSON file, which is an object. -/
def ofJson? (text : String) : Option Settings :=
  match Reader.run (jsonValue 127) text with
  | .ok (.mapping s) => some s
  | _ => none

end WheelFarm.Config
