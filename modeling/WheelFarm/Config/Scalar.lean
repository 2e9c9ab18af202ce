import WheelFarm.Config.Value
import WheelFarm.Text.Scanner

/-! Scalars that the formats of settings share: numbers with a fraction, and the escapes of quoted
texts. -/
namespace WheelFarm.Config
open Text

/-- A file's text without the byte order mark that it may begin with. -/
def withoutMark : List Char → List Char
  | '\ufeff' :: cs => cs
  | cs => cs

def skipDigits : Scanner Bool := do
  return !(← Scanner.takeWhile Char.isDigit).isEmpty

/-- A number in decimal digits with a point or a power of ten, digits before or behind the point. -/
def decimal : Scanner Unit := do
  if !(← Scanner.literal? ['-']) then
    let _ ← Scanner.literal? ['+']
  let whole ← skipDigits
  if ← Scanner.literal? ['.'] then
    let part ← skipDigits
    guard (whole || part)
  else guard whole
  let c ← Scanner.peek
  if c == some 'e' || c == some 'E' then
    let _ ← Scanner.any
    if !(← Scanner.literal? ['-']) then
      let _ ← Scanner.literal? ['+']
    guard (← skipDigits)

def isDecimal (cs : List Char) : Bool := (decimal.whole? cs).isSome

/-- The character with a number, unless it is half of a surrogate pair or too large. -/
def character? (n : Nat) : Option Char := if n.isValidChar then some (.ofNat n) else none

/-- The rest of an escape that gives a character's number in so many digits of base 16. -/
def numberedEscape (count : Nat) : Scanner Char := do
  match character? (← Scanner.digits 16 hexDigit? count) with
  | some c => return c
  | none => failure

def escape : Scanner Char := do
  match ← Scanner.any with
  | '"' => return '"'
  | '\\' => return '\\'
  | 'b' => return '\x08'
  | 'f' => return '\x0c'
  | 'n' => return '\n'
  | 'r' => return '\r'
  | 't' => return '\t'
  | 'u' => numberedEscape 4
  | 'U' => numberedEscape 8
  | _ => failure

/-- Whether a character may stand in a quoted text: no control character but the tab may. -/
def isQuotable (c : Char) : Bool := c == '\t' || (' ' ≤ c && c != '\x7f')

/-- The rest of a quoted text with escapes, behind its opening quote. -/
def quoted : Scanner String := do
  let cs ← Scanner.untilEnd (do
    match ← Scanner.any with
    | '"' => return none
    | '\\' => return some (← escape)
    | c => if isQuotable c then return some c else failure)
  return String.ofList cs

/-- The rest of a quoted text without escapes, behind its opening quote. -/
def verbatim : Scanner String := do
  let cs ← Scanner.takeWhile fun c => c != '\'' && isQuotable c
  Scanner.literal '\''
  return String.ofList cs

end WheelFarm.Config
