import WheelFarm.Text.Casing.Ranges

/-! Lower-casing of whole texts. Every letter goes to its lower-case form, the capital dotted I to
an i with a dot above it, and a capital sigma to the final form at the end of a word. -/
namespace WheelFarm.Text
open Casing

def inRanges (ranges : List (Nat × Nat)) (n : Nat) : Bool :=
  ranges.any fun r => r.1 ≤ n && n ≤ r.2

/-- Letters with case that are not looked through. -/
def isCased (c : Char) : Bool := inRanges casedRanges c.toNat

/-- Characters that are looked through in the search for a neighbouring letter. -/
def isCaseIgnorable (c : Char) : Bool := inRanges ignorableRanges c.toNat

def Casing.Run.contains (r : Run) (n : Nat) : Bool :=
  r.first ≤ n && n ≤ r.last && (n - r.first) % r.step == 0

/-- The lower-case form of a letter on its own; other characters stay as they are. -/
def lowerLetter (c : Char) : Char :=
  match runs.find? (·.contains c.toNat) with
  | some r => Char.ofNat (c.toNat + r.shift).toNat
  | none => c

/-- The first character that is not looked through is a letter with case. -/
def nextIsCased (cs : List Char) : Bool :=
  match cs.dropWhile isCaseIgnorable with
  | [] => false
  | c :: _ => isCased c

/-- Lower-casing with the characters before the text at hand, the nearest one first. -/
def lowerAfter (before : List Char) : List Char → List Char
  | [] => []
  | c :: cs =>
    let lowered :=
      if c = 'Σ' then [if nextIsCased before && !nextIsCased cs then 'ς' else 'σ']
      else if c = 'İ' then ['i', '\u0307']
      else [lowerLetter c]
    lowered ++ lowerAfter (c :: before) cs

def lower (cs : List Char) : List Char := lowerAfter [] cs

end WheelFarm.Text
