import WheelFarm.Config.Scalar

/-! Values as TOML writes them: quoted texts on one or more lines, numbers, truth values, lists and
inline tables. What a table consists of are its definitions, from which settings are put together
elsewhere. -/
namespace WheelFarm.Config.Toml
open Text

def isBlank (c : Char) : Bool := c == ' ' || c == '\t'

def skipBlanks : Scanner Unit := Scanner.skipWhile isBlank

def lineEnd? : Scanner Bool := do
  if ← Scanner.literal? ['\r', '\n'] then return true else Scanner.literal? ['\n']

def skipComment : Scanner Unit := do
  if ← Scanner.literal? ['#'] then Scanner.skipWhile isQuotable

def skipLines : Scanner Unit := do
  let _ ← Scanner.untilEnd do
    skipBlanks
    skipComment
    return if ← lineEnd? then some () else none

def namePart : Scanner String := do
  skipBlanks
  let part ← do
    if ← Scanner.literal? ['"'] then quoted
    else if ← Scanner.literal? ['\''] then verbatim
    else
      let cs ← Scanner.takeWhile fun c => c.isAlphanum || c == '_' || c == '-'
      guard (!cs.isEmpty)
      pure (String.ofList cs)
  skipBlanks
  return part

def name : Scanner (List String) := do
  let first ← namePart
  let rest ← Scanner.untilEnd do
    if ← Scanner.literal? ['.'] then return some (← namePart) else return none
  return first :: rest

/-- Digits without the underscores among them, each of which has to stand between two digits. -/
def ungroup? : List Char → Option (List Char)
  | [] => none
  | ['_'] => none
  | [c] => some [c]
  | '_' :: _ => none
  | c :: '_' :: d :: cs => if d = '_' then none else (ungroup? (d :: cs)).map (c :: ·)
  | c :: cs => (ungroup? cs).map (c :: ·)

def group (digit? : Char → Option Nat) : Scanner (List Char) := do
  match ungroup? (← Scanner.takeWhile fun c => c == '_' || (digit? c).isSome) with
  | some digits => return digits
  | none => failure

/-- A whole number in digits of a base; it has 64 bits with its sign. -/
def whole (base : Nat) (digit? : Char → Option Nat) (negative : Bool) (digits : List Char) :
    Scanner Value := do
  let n : Int := digits.foldl (fun n c => n * base + ((digit? c).getD 0 : Nat)) 0
  let n := if negative then -n else n
  guard (-9223372036854775808 ≤ n ∧ n ≤ 9223372036854775807)
  return .integer n

/-- A digit of a base below ten. -/
def smallDigit? (base : Nat) (c : Char) : Option Nat := do
  let d ← digit? c
  guard (d < base)
  return d

/-- A decimal number behind its sign. Zeros do not fill it up at its beginning. -/
def number (negative : Bool) : Scanner Value := do
  let digits ← group digit?
  guard (digits.length == 1 || digits.head? != some '0')
  let point ← Scanner.literal? ['.']
  if point then
    let _ ← group digit?
  let small ← Scanner.literal? ['e']
  let mark ← if small then pure true else Scanner.literal? ['E']
  if mark then
    if !(← Scanner.literal? ['-']) then
      let _ ← Scanner.literal? ['+']
    let _ ← group digit?
  if point || mark then return .fraction else whole 10 digit? negative digits

def bare : Scanner Value := do
  if ← Scanner.literal? "true".toList then return .boolean true
  if ← Scanner.literal? "false".toList then return .boolean false
  if ← Scanner.literal? "0x".toList then whole 16 hexDigit? false (← group hexDigit?)
  else if ← Scanner.literal? "0o".toList then
    whole 8 (smallDigit? 8) false (← group (smallDigit? 8))
  else if ← Scanner.literal? "0b".toList then
    whole 2 (smallDigit? 2) false (← group (smallDigit? 2))
  else
    let negative ← Scanner.literal? ['-']
    if !negative then
      let _ ← Scanner.literal? ['+']
    if ← Scanner.literal? "inf".toList then return .fraction
    if ← Scanner.literal? "nan".toList then return .fraction
    number negative

/-- The end of a text on more lines: three quotes, before which up to two belong to the text. -/
def closing? (quote : Char) : Scanner (Option (List Char)) := do
  if ← Scanner.literal? (List.replicate 5 quote) then return some [quote, quote]
  else if ← Scanner.literal? (List.replicate 4 quote) then return some [quote]
  else if ← Scanner.literal? (List.replicate 3 quote) then return some []
  else return none

/-- What stands behind a backslash in a text on more lines: an escape, or the end of the line, which
is left out with the white space around it. -/
def escapeOrFold : Scanner (List Char) := do
  match ← Scanner.peek with
  | some ' ' | some '\t' | some '\n' | some '\r' =>
    skipBlanks
    guard (← lineEnd?)
    Scanner.skipWhile fun c => isBlank c || c == '\n' || c == '\r'
    return []
  | _ => return [← escape]

/-- The rest of a text on more lines, what has been read of it last character first. -/
def linesLoop (quote : Char) : Nat → List Char → Scanner (List Char)
  | 0, _ => failure
  | fuel + 1, read => do
    match ← closing? quote with
    | some last => return read.reverse ++ last
    | none =>
      if ← lineEnd? then linesLoop quote fuel ('\n' :: read)
      else
        let c ← Scanner.any
        guard (isQuotable c)
        if c == '\\' && quote == '"' then linesLoop quote fuel ((← escapeOrFold) ++ read)
        else linesLoop quote fuel (c :: read)

/-- The rest of a text on more lines, behind its three opening quotes. A line end right behind these
does not belong to it. -/
def lines (quote : Char) : Scanner String := do
  let _ ← lineEnd?
  return String.ofList (← linesLoop quote ((← get).length + 1) [])

inductive Definition
  /-- The following entries lie in the table with the name. -/
  | header (name : List String)
  | entry (name : List String) (value : Value)

/-- The items of a list up to its end; a comma may stand before the end. -/
def itemsLoop (value : Scanner Value) : Nat → List Value → Scanner (List Value)
  | 0, _ => failure
  | fuel + 1, found => do
    skipLines
    if ← Scanner.literal? [']'] then return found.reverse
    let v ← value
    skipLines
    if ← Scanner.literal? [','] then itemsLoop value fuel (v :: found)
    else
      Scanner.literal ']'
      return (v :: found).reverse

def entry (value : Scanner Value) : Scanner Definition := do
  let n ← name
  Scanner.literal '='
  skipBlanks
  return .entry n (← value)

def inlineEntries (value : Scanner Value) : Scanner (List Definition) := do
  skipBlanks
  if ← Scanner.literal? ['\x7d'] then return []
  let first ← entry value
  skipBlanks
  let rest ← Scanner.untilEnd do
    if ← Scanner.literal? [','] then
      let e ← entry value
      skipBlanks
      return some e
    else return none
  Scanner.literal '\x7d'
  return first :: rest

/-- A value in which lists and inline tables lie so deep at most; `table?` puts an inline table
together. -/
def value (table? : List Definition → Option Settings) : Nat → Scanner Value
  | 0 => failure
  | depth + 1 => do
    if ← Scanner.literal? ['"', '"', '"'] then return .text (← lines '"')
    else if ← Scanner.literal? ['\'', '\'', '\''] then return .text (← lines '\'')
    else if ← Scanner.literal? ['"'] then return .text (← quoted)
    else if ← Scanner.literal? ['\''] then return .text (← verbatim)
    else if ← Scanner.literal? ['['] then
      return .list (← itemsLoop (value table? depth) ((← get).length + 1) [])
    else if ← Scanner.literal? ['\x7b'] then
      match table? (← inlineEntries (value table? depth)) with
      | some s => return .mapping s
      | none => failure
    else bare

end WheelFarm.Config.Toml
