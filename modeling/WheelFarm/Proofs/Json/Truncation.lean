import WheelFarm.Proofs.Json.Cuts
import WheelFarm.Proofs.Json.Refusal

/-! Readers of texts that are cut off. A container is not over before its last bracket, so that a
reader of one finds every cut of it truncated. A reader of a number may take what is left of it, and
then stands at the end of the text. -/
namespace WheelFarm.Json

variable {α β σ : Type}

section Cuts
variable {t : Token} {ts us vs : List Token}

/-- The tokens of one character. -/
def Token.IsMark : Token → Prop
  | .openBrace | .closeBrace | .openBracket | .closeBracket | .colon | .comma => True
  | _ => False

lemma cut_mark (ht : t.IsMark) (h : Cut (t :: ts) us) : us = [] ∨ ∃ vs, us = t :: vs ∧ Cut ts vs := by
  cases h with
  | nil => exact .inl rfl
  | cons h => exact .inr ⟨_, rfl, h⟩
  | last h =>
    cases h with
    | word h => rcases h with rfl | ⟨b, rfl⟩ <;> exact ht.elim
    | string | number | digits => exact ht.elim
  | broken h => cases t <;> first | exact h.elim | exact ht.elim

end Cuts

/-- The reader finds every cut of the tokens truncated. -/
def Halts (r : Reader α) (ts : List Token) : Prop := ∀ us, Cut ts us → Stops r us .truncated

/-- The reader finds every cut of the tokens truncated, or takes all that is left. -/
def Wary (r : Reader α) (ts : List Token) : Prop :=
  ∀ us, Cut ts us → Stops r us .truncated ∨ ∃ a, Reads r us a []

lemma Halts.wary {r : Reader α} {ts : List Token} (h : Halts r ts) : Wary r ts :=
  fun us hus => .inl (h us hus)

namespace Reader

section Values

end Values

section Arrays
variable {item : Reader α} {as : List α} {tss : List (List Token)} {us : List Token}

/-- The tokens of an item that is read with care. -/
structure Guarded (item : Reader α) (ts : List Token) (a : α) : Prop where
  begins : ∃ t us, ts = t :: us ∧ t ≠ .closeBracket ∧ ¬ t.IsBroken
  takes : Takes item ts a
  wary : Wary item ts

end Arrays

section Objects
variable {member : String → σ → Reader σ} {s s' : σ} {ms : List (String × List Token)}
  {us : List Token}

/-- Members of an object that are read with care. -/
inductive Watched (member : String → σ → Reader σ) : σ → List (String × List Token) → Prop
  | nil (s : σ) : Watched member s []
  | cons {s s' : σ} {k : String} {ts : List Token} {ms : List (String × List Token)}
      (first : Takes (member k s) ts s') (wary : Wary (member k s) ts)
      (others : Watched member s' ms) : Watched member s ((k, ts) :: ms)

end Objects

end Reader

end WheelFarm.Json
