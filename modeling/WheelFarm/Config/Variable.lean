import WheelFarm.Config.Scalar
import WheelFarm.Text.Pieces

/-! Settings in environment variables. The name of a variable tells the path of the setting, and its
text is read as a value: a truth value, a number, a quoted text or character, a list, a mapping, or
else the text as it stands. -/
namespace WheelFarm.Config
open Text

namespace Variable

/-- What the names of the program's variables begin with, in small letters. -/
def beginning : List Char := "wheelhouse_".toList

/-- Two underscores stand between the names of a path; a point does as well. -/
def separate : List Char → List Char
  | '_' :: '_' :: cs => '.' :: separate cs
  | c :: cs => c :: separate cs
  | [] => []

/-- The path of the setting that a variable gives, if it is one of the program's variables. Letter
case does not matter. -/
def path? (name : String) : Option (List String) := do
  let rest ← dropStart? beginning ((trim name.toList).map Char.toLower)
  let names := pieces '.' (trim (separate rest))
  guard (names.all fun n => !n.isEmpty)
  return names.map String.ofList

def isBlank (c : Char) : Bool :=
  c == ' ' || c == '\t' || c == '\n' || c == '\r' || c == '\x0c'

def isSeparator (c : Char) : Bool :=
  c == ',' || c == '[' || c == ']' || c == '\x7b' || c == '\x7d'

/-- The value that a text without quotes stands for. Only a point makes a number a fraction. -/
def plain (cs : List Char) : Value :=
  if cs.contains '.' && isDecimal cs then .fraction
  else match signed? cs with
    | some n =>
      if -9223372036854775808 ≤ n ∧ n ≤ 18446744073709551615 then .integer n
      else .text (String.ofList cs)
    | none => .text (String.ofList cs)

def padded {α : Type} (s : Scanner α) : Scanner α := do
  Scanner.skipWhile isBlank
  let a ← s
  Scanner.skipWhile isBlank
  return a

def name : Scanner String := do
  if ← Scanner.literal? ['"'] then quoted
  else
    let cs ← Scanner.takeWhile fun c => c.isAlphanum || c == '_' || c == '-'
    guard (!cs.isEmpty)
    return String.ofList cs

/-- The items up to an end, at most so many; a comma may stand before the end. -/
def itemsLoop {α : Type} (item : Scanner α) (closing : Char) : Nat → List α → Scanner (List α)
  | 0, _ => failure
  | fuel + 1, found => do
    if ← Scanner.literal? [closing] then return found.reverse
    let a ← item
    if ← Scanner.literal? [','] then itemsLoop item closing fuel (a :: found)
    else
      Scanner.literal closing
      return (a :: found).reverse

/-- The items up to an end. There are no more of them than characters. -/
def items {α : Type} (item : Scanner α) (closing : Char) : Scanner (List α) := do
  itemsLoop item closing ((← get).length + 1) []

def entry (value : Scanner Value) : Scanner (String × Value) := do
  let n ← padded name
  Scanner.literal '='
  return (n, ← value)

/-- A value in which lists and mappings lie so deep at most. -/
def value : Nat → Scanner Value
  | 0 => failure
  | depth + 1 => padded do
    if ← Scanner.literal? "true".toList then return .boolean true
    else if ← Scanner.literal? "false".toList then return .boolean false
    else if ← Scanner.literal? ['\x7b'] then
      let entries ← items (entry (value depth)) '\x7d'
      return .mapping (entries.foldl (fun s e => Settings.put s e.1 e.2) [])
    else if ← Scanner.literal? ['['] then return .list (← items (value depth) ']')
    else if ← Scanner.literal? ['"'] then return .text (← quoted)
    else if ← Scanner.literal? ['\''] then
      let c ← Scanner.any
      Scanner.literal '\''
      return .text (String.singleton c)
    else return plain (trim (← Scanner.takeWhile fun c => !isSeparator c))

/-- The value of a variable; a text that cannot be read to its end is taken as it stands. -/
def read (text : String) : Value :=
  let cs := text.toList
  ((value (cs.length + 1)).whole? cs).getD (.text text)

end Variable

/-- The settings that environment variables give, their texts read as values. A later variable goes
before an earlier one. -/
def ofVariables (read : String → Value) (environment : List (String × String)) : Settings :=
  environment.foldl (fun s v =>
    match Variable.path? v.1 with
    | some path => s.overlay (Settings.nest (read v.2) path)
    | none => s) []

end WheelFarm.Config
