import WheelFarm.Config.Scalar
import WheelFarm.Text.Pieces

/-! Scalars and flow collections as YAML writes them. A plain scalar is read as null, a truth value
or a number where it looks like one; quotes make it a text. -/
namespace WheelFarm.Config.Yaml
open Text

def isBlank (c : Char) : Bool := c == ' ' || c == '\t'

/-- The characters that belong to flow collections. -/
def isFlow (c : Char) : Bool :=
  c == ',' || c == '[' || c == ']' || c == '\x7b' || c == '\x7d'

/-- Whether digits are filled up with zeros at their beginning, which makes them a text. -/
def isPadded (cs : List Char) : Bool :=
  let digits := match cs with
    | '+' :: cs => cs
    | '-' :: cs => cs
    | cs => cs
  1 < digits.length && digits.head? == some '0' && digits.all Char.isDigit

def inBase? (base : Nat) (cs : List Char) : Option Nat :=
  if cs.isEmpty then none
  else cs.foldlM (fun n c => do
    let d ← hexDigit? c
    guard (d < base)
    return n * base + d) 0

/-- A whole number without its sign, in base ten or behind the mark of another base. -/
def whole? : List Char → Option Nat
  | '0' :: 'x' :: cs => inBase? 16 cs
  | '0' :: 'o' :: cs => inBase? 8 cs
  | '0' :: 'b' :: cs => inBase? 2 cs
  | cs => inBase? 10 cs

def integer? (cs : List Char) : Option Int :=
  if isPadded cs then none
  else match cs with
    | '-' :: cs => (whole? cs).map fun n => -(n : Int)
    | '+' :: cs => (whole? cs).map Int.ofNat
    | cs => (whole? cs).map Int.ofNat

/-- Whether a plain scalar is a number with a fraction, one without limits, or no number at all. -/
def isFraction (cs : List Char) : Bool :=
  let special : List (List Char) := [".inf", ".Inf", ".INF", "+.inf", "+.Inf", "+.INF", "-.inf",
    "-.Inf", "-.INF", ".nan", ".NaN", ".NAN"].map String.toList
  special.contains cs || (isDecimal cs && !isPadded cs)

def plainValue (cs : List Char) : Value :=
  let word := String.ofList cs
  if ["", "~", "null", "Null", "NULL"].contains word then .null
  else if ["true", "True", "TRUE"].contains word then .boolean true
  else if ["false", "False", "FALSE"].contains word then .boolean false
  else match integer? cs with
    | some n => .integer n
    | none => if isFraction cs then .fraction else .text word

def letterEscape? : Char → Option Char
  | '0' => some '\x00'
  | 'a' => some '\x07'
  | 'b' => some '\x08'
  | 't' | '\t' => some '\t'
  | 'n' => some '\n'
  | 'v' => some '\x0b'
  | 'f' => some '\x0c'
  | 'r' => some '\r'
  | 'e' => some '\x1b'
  | ' ' => some ' '
  | '"' => some '"'
  | '/' => some '/'
  | '\\' => some '\\'
  | 'N' => some '\u0085'
  | '_' => some '\u00a0'
  | 'L' => some '\u2028'
  | 'P' => some '\u2029'
  | _ => none

def flowEscape : Scanner Char := do
  let c ← Scanner.any
  if c == 'x' then numberedEscape 2
  else if c == 'u' then numberedEscape 4
  else if c == 'U' then numberedEscape 8
  else match letterEscape? c with
    | some c => return c
    | none => failure

def doubleQuoted : Scanner String := do
  let cs ← Scanner.untilEnd do
    match ← Scanner.any with
    | '"' => return none
    | '\\' => return some (← flowEscape)
    | c => return some c
  return String.ofList cs

/-- The rest of a text in single quotes, where two of them stand for one. -/
def singleQuoted : Scanner String := do
  let cs ← Scanner.untilEnd do
    if ← Scanner.literal? ['\'', '\''] then return some '\''
    match ← Scanner.any with
    | '\'' => return none
    | c => return some c
  return String.ofList cs

/-- Whether a plain scalar can begin like this. -/
def startsPlain (inFlow : Bool) : List Char → Bool
  | [] => false
  | c :: cs =>
    if c == '-' || c == '?' || c == ':' then
      match cs with
      | [] => false
      | d :: _ => !isBlank d && !(inFlow && isFlow d)
    else !isBlank c && !isFlow c && !"#&*!|>'\"%@\x60".toList.contains c

/-- The front of a text up to what ends a plain scalar, and the rest. -/
def splitPlain (inFlow : Bool) : List Char → List Char × List Char
  | [] => ([], [])
  | c :: cs =>
    let ends := (inFlow && isFlow c) || (c == ':' && match cs with
      | [] => true
      | d :: _ => isBlank d || (inFlow && isFlow d))
    if ends then ([], c :: cs)
    else
      let (front, rest) := splitPlain inFlow cs
      (c :: front, rest)

def plain (inFlow : Bool) : Scanner (List Char) := do
  let cs ← get
  guard (startsPlain inFlow cs)
  let (front, rest) := splitPlain inFlow cs
  set rest
  return dropEndWhile isBlank front

def nameText (inFlow : Bool) : Scanner String := do
  if ← Scanner.literal? ['"'] then doubleQuoted
  else if ← Scanner.literal? ['\''] then singleQuoted
  else return String.ofList (← plain inFlow)

/-- The items of a flow sequence up to its end; a comma may stand before the end. -/
def flowItems (value : Scanner Value) : Nat → List Value → Scanner (List Value)
  | 0, _ => failure
  | fuel + 1, found => do
    Scanner.skipWhile isBlank
    if ← Scanner.literal? [']'] then return found.reverse
    let v ← value
    Scanner.skipWhile isBlank
    if ← Scanner.literal? [','] then flowItems value fuel (v :: found)
    else
      Scanner.literal ']'
      return (v :: found).reverse

/-- The value behind a name of a flow mapping; without one it is null. -/
def flowValue (value : Scanner Value) : Scanner Value := do
  Scanner.skipWhile isBlank
  if ← Scanner.literal? [':'] then
    Scanner.skipWhile isBlank
    let c ← Scanner.peek
    if c == some ',' || c == some '\x7d' then return .null else value
  else return .null

/-- The entries of a flow mapping up to its end; a comma may stand before the end. -/
def flowEntries (value : Scanner Value) : Nat → Settings → Scanner Settings
  | 0, _ => failure
  | fuel + 1, found => do
    Scanner.skipWhile isBlank
    if ← Scanner.literal? ['\x7d'] then return found
    let n ← nameText true
    let found := found.put n (← flowValue value)
    Scanner.skipWhile isBlank
    if ← Scanner.literal? [','] then flowEntries value fuel found
    else
      Scanner.literal '\x7d'
      return found

/-- A scalar or a flow collection, in which others lie so deep at most. -/
def flow (inFlow : Bool) : Nat → Scanner Value
  | 0 => failure
  | depth + 1 => do
    Scanner.skipWhile isBlank
    let fuel := (← get).length + 1
    if ← Scanner.literal? ['['] then return .list (← flowItems (flow true depth) fuel [])
    else if ← Scanner.literal? ['\x7b'] then
      return .mapping (← flowEntries (flow true depth) fuel [])
    else if ← Scanner.literal? ['"'] then return .text (← doubleQuoted)
    else if ← Scanner.literal? ['\''] then return .text (← singleQuoted)
    else return plainValue (← plain inFlow)

end WheelFarm.Config.Yaml
