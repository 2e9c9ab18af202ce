import WheelFarm.Proofs.Json.Numeral
import WheelFarm.Proofs.Json.Tokens

/-! Texts that are cut off. The tokens of what is left are those of the whole text up to the cut, and
what has been written of the token that the cut goes through: a number of fewer digits may be left
of a number, and of every other token something that is no token. -/
namespace WheelFarm.Json

namespace Numeral

/-- The greatest value of any number that the digits of this one begin with. -/
def peak (n : Numeral) : ℚ := n.digits * 10 ^ ((n.power.toNat : Int) - n.places)

/-- The first number is what may be left of the second one. -/
structure Begins (m n : Numeral) : Prop where
  negative : m.negative = n.negative
  plain : n.plain = true → m.plain = true
  digits : m.digits ≤ n.digits
  peak : m.peak ≤ n.peak

variable {m n o : Numeral} {c : Char}

theorem Begins.refl (n : Numeral) : n.Begins n := ⟨rfl, id, le_rfl, le_rfl⟩

theorem Begins.trans (h : m.Begins n) (h' : n.Begins o) : m.Begins o where
  negative := h.negative.trans h'.negative
  plain ho := h.plain (h'.plain ho)
  digits := h.digits.trans h'.digits
  peak := h.peak.trans h'.peak

/-- The power of a number has the sign that its digits are read with. -/
def Signed (negative : Bool) (n : Numeral) : Prop := if negative then n.power ≤ 0 else 0 ≤ n.power

end Numeral

namespace Literal

end Literal

section Scanning
variable {part : NumberPart} {n : Numeral} {s : Scan} {t u : Token} {ts us : List Token} {c : Char}
  {cs rest : List Char}

/-- The sign of the power as far as it has been read. -/
def NumberPart.Signed (part : NumberPart) (n : Numeral) : Prop :=
  match part with
  | .power negative => n.Signed negative
  | _ => n.power = 0

/-- The states that a text leads to. -/
def Scan.Sound : Scan → Prop
  | .word _ t => t = .null ∨ ∃ b, t = .bool b
  | .number part n => part.Signed n
  | _ => True

def Token.IsBroken : Token → Prop
  | .broken .. => True
  | _ => False

section Quoted
variable {q : Quoted}

end Quoted

/-- What may be left of a token that a cut goes through. -/
inductive Shortened : Token → Token → Prop
  | word {t : Token} (h : t = .null ∨ ∃ b, t = .bool b) :
      Shortened t (.broken false .truncated .truncated)
  | string {text : Option String} {wanted : Fault} (h : text.isSome = true → wanted = .truncated) :
      Shortened (.string text) (.broken true wanted .truncated)
  | number {n : Numeral} : Shortened (.number n) (.broken false .truncated .malformed)
  | digits {m n : Numeral} (h : m.Begins n) : Shortened (.number n) (.number m)

/-- What is left of tokens at a cut through their text. Behind a broken one there is nothing to
tell. -/
inductive Cut : List Token → List Token → Prop
  | nil {t : Token} {ts : List Token} : Cut (t :: ts) []
  | last {t u : Token} {ts : List Token} (h : Shortened t u) : Cut (t :: ts) [u]
  | cons {t : Token} {ts us : List Token} (h : Cut ts us) : Cut (t :: ts) (t :: us)
  | broken {t : Token} {ts us : List Token} (h : t.IsBroken) : Cut (t :: ts) us

end Scanning

end WheelFarm.Json
