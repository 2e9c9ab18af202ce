import WheelFarm.Binary64

/-! The shortest decimal that reads back as a value. For one digit, two digits and so on, the two
decimals of that many digits that enclose the value are tried; the first count of digits with a
decimal that reads back wins, and of two such decimals the nearer one. -/
namespace WheelFarm

/-- The number `digits * 10 ^ exponent`. -/
structure Decimal where
  digits : Nat
  exponent : Int
  deriving DecidableEq, Repr

namespace Binary64

def decimalLength (n : Nat) : Nat := (Nat.toDigits 10 n).length

/-- The greatest `e` with `10 ^ e ≤ num / den`, for a fraction above zero. -/
def floorLog10 (num den : Nat) : Int :=
  if den ≤ num then (decimalLength (num / den) : Int) - 1
  else -(decimalLength ((den - 1) / num) : Int)

def readsBack (x : Binary64) (d : Decimal) : Bool := ofDecimal d.digits d.exponent == x

/-- The decimals of `count` digits just below and just above the value. -/
def enclosing (x : Binary64) (count : Nat) : Decimal × Decimal :=
  let e := floorLog10 x.num x.den + 1 - count
  let below := x.num * Nat.pow 10 (-e).toNat / (x.den * Nat.pow 10 e.toNat)
  let above := if below + 1 = Nat.pow 10 count then ⟨1, e + count⟩ else ⟨below + 1, e⟩
  (⟨below, e⟩, above)

/-- Whether the value lies in the lower half between its two enclosing decimals. -/
def nearerBelow (x : Binary64) (below : Decimal) : Bool :=
  2 * x.num * Nat.pow 10 (-below.exponent).toNat ≤
    (2 * below.digits + 1) * x.den * Nat.pow 10 below.exponent.toNat

/-- The decimal of `count` digits that reads back as the value, if there is one. -/
def ofCount? (x : Binary64) (count : Nat) : Option Decimal :=
  let (below, above) := enclosing x count
  match readsBack x below, readsBack x above with
  | true, true => some (if nearerBelow x below then below else above)
  | true, false => some below
  | false, true => some above
  | false, false => none

/-- The shortest decimal that reads back as a value above zero; seventeen digits always do. -/
def shortest (x : Binary64) : Decimal :=
  ((List.range 17).findSome? fun n => ofCount? x (n + 1)).getD (enclosing x 17).1

end Binary64
end WheelFarm
