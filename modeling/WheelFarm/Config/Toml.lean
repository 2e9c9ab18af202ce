import WheelFarm.Config.Toml.Value

/-! Settings in TOML files. A file is a list of definitions, and nothing in it is defined twice: an
entry has a name that is still free, a header opens a table that none has opened before, and a table
that an entry gives as a whole is closed. Files with dates, times or arrays of tables, of which no
setting has any use, are not read. -/
namespace WheelFarm.Config
namespace Toml
open Text

/-- A table as far as its definitions have been taken in. Paths begin at the outermost table. -/
structure Table where
  settings : Settings := []
  /-- The table that the last header opened. -/
  current : List String := []
  /-- The tables that headers opened. -/
  headers : List (List String) := []
  /-- The tables that the names of entries opened. -/
  opened : List (List String) := []
  /-- The values that entries gave. -/
  values : List (List String) := []

/-- The settings with a value under a path that is still free. The path leads through tables that
may be entered, and opens those that are not there. -/
def define? (mayEnter : List String → Bool) (above : List String) (s : Settings) (v : Value) :
    List String → Option Settings
  | [] => none
  | [n] => if (s.lookup n).isSome then none else some (s.put n v)
  | n :: n' :: names => do
    let inner ← match s.lookup n with
      | none => some []
      | some (.mapping inner) => if mayEnter (above ++ [n]) then some inner else none
      | some _ => none
    return s.put n (.mapping (← define? mayEnter (above ++ [n]) inner v (n' :: names)))

/-- The paths of the tables around the last name of an entry in a table. -/
def aroundEntry (table name : List String) : List (List String) :=
  (List.range (name.length - 1)).map fun n => table ++ name.take (n + 1)

namespace Table

/-- Takes in an entry. Behind the table it lies in, its name leads through tables that only names of
entries opened. -/
def addValue? (t : Table) (name : List String) (v : Value) : Option Table := do
  let path := t.current ++ name
  let mayEnter := fun p => p.length ≤ t.current.length || t.opened.contains p
  let settings ← define? mayEnter [] t.settings v path
  return { t with
    settings
    opened := aroundEntry t.current name ++ t.opened
    values := path :: t.values }

/-- Whether a table lies under a path already. -/
def isTable (s : Settings) : List String → Bool
  | [] => true
  | n :: names =>
    match s.lookup n with
    | some (.mapping inner) => isTable inner names
    | _ => false

/-- Takes in a header, which leads through tables that no entry gave as a whole. -/
def addHeader? (t : Table) (name : List String) : Option Table := do
  guard (!t.headers.contains name && !t.opened.contains name)
  guard (!(name :: aroundEntry [] name).any t.values.contains)
  let settings ←
    if isTable t.settings name then some t.settings
    else define? (fun _ => true) [] t.settings (.mapping []) name
  return { t with settings, current := name, headers := name :: t.headers }

def add? (t : Table) : Definition → Option Table
  | .header name => t.addHeader? name
  | .entry name v => t.addValue? name v

end Table

/-- The settings that definitions make, unless something is defined twice. -/
def table? (ds : List Definition) : Option Settings :=
  (ds.foldlM Table.add? {}).map Table.settings

def maxDepth : Nat := 80

/-- A definition with its line; none at the end of the file. -/
def definition? : Scanner (Option Definition) := do
  skipLines
  if (← get).isEmpty then return none
  let d ← do
    if ← Scanner.literal? ['['] then
      let n ← name
      Scanner.literal ']'
      pure (.header n)
    else entry (value table? maxDepth)
  skipBlanks
  skipComment
  if !(← lineEnd?) then guard (← get).isEmpty
  return some d

end Toml

def ofToml? (text : String) : Option Settings := do
  Toml.table? (← (Text.Scanner.untilEnd Toml.definition?).whole? (withoutMark text.toList))

end WheelFarm.Config
