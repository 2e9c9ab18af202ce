/-! Binary floating point with 53-bit mantissas as exact arithmetic: every value is a mantissa
times a power of two, and every operation gives the value nearest to the exact result, the one
with the even mantissa where two are equally near. Only non-negative values are needed here. -/
namespace WheelFarm

/-- The natural number nearest to a quotient, the even one where two are equally near. -/
def roundDiv (num den : Nat) : Nat :=
  let whole := num / den
  let twice := 2 * (num % den)
  if twice < den then whole
  else if den < twice then whole + 1
  else if whole % 2 = 0 then whole else whole + 1

/-- The value `mantissa * 2 ^ exponent`. -/
structure Binary64 where
  mantissa : Nat
  exponent : Int
  deriving DecidableEq, Repr

namespace Binary64

def num (x : Binary64) : Nat := x.mantissa * Nat.pow 2 x.exponent.toNat

def den (x : Binary64) : Nat := Nat.pow 2 (-x.exponent).toNat

/-- The greatest `e` with `2 ^ e ≤ num / den`, for a fraction above zero. -/
def floorLog2 (num den : Nat) : Int :=
  let e := (Nat.log2 num : Int) - Nat.log2 den
  if den * Nat.pow 2 e.toNat ≤ num * Nat.pow 2 (-e).toNat then e else e - 1

def minExponent : Int := -1074

def maxExponent : Int := 971

/-- The value nearest to a fraction, with as large an exponent as that takes. -/
def ofRatio (num den : Nat) : Binary64 :=
  if num = 0 then ⟨0, minExponent⟩
  else
    let e := max minExponent (floorLog2 num den - 52)
    let m := roundDiv (num * Nat.pow 2 (-e).toNat) (den * Nat.pow 2 e.toNat)
    if m = Nat.pow 2 53 then ⟨Nat.pow 2 52, e + 1⟩ else ⟨m, e⟩

def isFinite (x : Binary64) : Bool := x.exponent ≤ maxExponent

def add (x y : Binary64) : Binary64 :=
  ofRatio (x.num * y.den + y.num * x.den) (x.den * y.den)

/-- The value nearest to `digits * 10 ^ exponent`. -/
def ofDecimal (digits : Nat) (exponent : Int) : Binary64 :=
  ofRatio (digits * Nat.pow 10 exponent.toNat) (Nat.pow 10 (-exponent).toNat)

end Binary64
end WheelFarm
