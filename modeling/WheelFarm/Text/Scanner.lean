/-! Whole numbers written in digits, and scanners, which take what they read from the front of a text
and fail where it is not there. -/
namespace WheelFarm.Text

def digit? (c : Char) : Option Nat := if c.isDigit then some (c.toNat - '0'.toNat) else none

def hexDigit? (c : Char) : Option Nat :=
  if 'a' ≤ c && c ≤ 'f' then some (c.toNat - 'a'.toNat + 10)
  else if 'A' ≤ c && c ≤ 'F' then some (c.toNat - 'A'.toNat + 10)
  else digit? c

/-- The number that a text of at least one digit writes. -/
def natural? (cs : List Char) : Option Nat :=
  if cs.isEmpty then none
  else cs.foldlM (fun n c => (digit? c).map (n * 10 + ·)) 0

/-- The number that digits write, or a plus sign and digits. -/
def unsigned? : List Char → Option Nat
  | '+' :: cs => natural? cs
  | cs => natural? cs

/-- The number that digits write, or a sign and digits. -/
def signed? : List Char → Option Int
  | '-' :: cs => (natural? cs).map fun n => -(n : Int)
  | cs => (unsigned? cs).map Int.ofNat

/-- Takes something from the front of a text. -/
abbrev Scanner := StateT (List Char) Option

namespace Scanner

def any : Scanner Char := do
  match ← get with
  | [] => failure
  | c :: cs => set cs; return c

def satisfying (p : Char → Bool) : Scanner Char := do
  let c ← any
  guard (p c)
  return c

def literal (c : Char) : Scanner Unit := do
  let _ ← satisfying (· == c)

/-- The character at the front, which stays there. -/
def peek : Scanner (Option Char) := do return (← get).head?

/-- A text, if the front is that one. -/
def literal? (start : List Char) : Scanner Bool := do
  let cs ← get
  if start.isPrefixOf cs then
    set (cs.drop start.length)
    return true
  else return false

def takeWhile (p : Char → Bool) : Scanner (List Char) := do
  let cs ← get
  set (cs.dropWhile p)
  return cs.takeWhile p

def skipWhile (p : Char → Bool) : Scanner Unit := modify (List.dropWhile p)

def digits (base : Nat) (digit? : Char → Option Nat) : Nat → Scanner Nat
  | 0 => return 0
  | count + 1 => do
    let rest ← digits base digit? count
    match digit? (← any) with
    | some d => return rest * base + d
    | none => failure

/-- Repeats a scanner until it finds the end, at most so many times. -/
def untilEndLoop {α : Type} (item? : Scanner (Option α)) : Nat → List α → Scanner (List α)
  | 0, _ => failure
  | fuel + 1, found => do
    match ← item? with
    | some a => untilEndLoop item? fuel (a :: found)
    | none => return found.reverse

/-- Repeats a scanner until it finds the end. It takes a character each time, so that there are no
more repetitions than characters. -/
def untilEnd {α : Type} (item? : Scanner (Option α)) : Scanner (List α) := do
  untilEndLoop item? ((← get).length + 1) []

/-- What a scanner reads if it takes the whole text. -/
def whole? {α : Type} (s : Scanner α) (cs : List Char) : Option α :=
  match StateT.run s cs with
  | some (a, []) => some a
  | _ => none

end Scanner
end WheelFarm.Text
