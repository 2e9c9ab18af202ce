import WheelFarm.Proofs.Json.Reader

/-! Readers that stop with a fault. What a reader has taken before makes no difference to the fault,
and of the items of an array or the members of an object the first one that is refused decides. -/
namespace WheelFarm.Json

variable {α β σ : Type} {f : Fault}

/-- The reader stops at these tokens. -/
def Stops (r : Reader α) (ts : List Token) (f : Fault) : Prop := StateT.run r ts = .error f

/-- The reader refuses these tokens, whatever stands behind them. -/
def Refuses (r : Reader α) (ts : List Token) (f : Fault) : Prop := ∀ rest, Stops r (ts ++ rest) f

theorem Stops.bind {r : Reader α} {k : α → Reader β} {ts : List Token} (h : Stops r ts f) :
    Stops (r >>= k) ts f := by
  rw [Stops, StateT.run_bind, h]
  rfl

theorem Reads.stops {r : Reader α} {k : α → Reader β} {ts us : List Token} {a : α}
    (h : Reads r ts a us) (hk : Stops (k a) us f) : Stops (r >>= k) ts f := by
  rw [Stops, StateT.run_bind, h]
  exact hk

theorem stops_throw (ts : List Token) : Stops (throw f : Reader α) ts f := rfl

namespace Reader
variable {ts rest : List Token}

/-- Members of an object, of which one is refused and those before it are not. -/
inductive Breaks (member : String → σ → Reader σ) (f : Fault) :
    σ → List (String × List Token) → Prop
  | here {s : σ} {k : String} {ts : List Token} {ms : List (String × List Token)}
      (refused : Refuses (member k s) ts f) : Breaks member f s ((k, ts) :: ms)
  | later {s s' : σ} {k : String} {ts : List Token} {ms : List (String × List Token)}
      (first : Takes (member k s) ts s') (others : Breaks member f s' ms) :
      Breaks member f s ((k, ts) :: ms)

variable {member : String → σ → Reader σ} {s s' : σ} {ms : List (String × List Token)}

end Reader

end WheelFarm.Json
