import WheelFarm.Json.Token

/-! Readers of JSON tokens. A reader takes what it wants from the front of the tokens, in one pass:
the first thing that is wrong decides, and values that nobody wants are passed over with their
grammar checked and nothing else. -/
namespace WheelFarm.Json

/-- Takes a value from the front of the tokens. -/
abbrev Reader := StateT (List Token) (Except Fault)

namespace Reader

/-- What is wrong with the token where a value of another kind is wanted. -/
def refuse : Option Token → Fault
  | none => .truncated
  | some (.broken _ wanted _) => wanted
  | some (.string none) => .malformed
  | some (.number n) => if n.magnitude?.isNone then .malformed else .mismatch
  | some .colon | some .comma | some .closeBrace | some .closeBracket => .malformed
  | some _ => .mismatch

/-- The token at the front, which stays there. -/
def peek : Reader (Option Token) := do return (← get).head?

def drop : Reader Unit := modify List.tail

def string : Reader String := do
  match ← peek with
  | some (.string (some s)) => drop; return s
  | t => throw (refuse t)

def bool : Reader Bool := do
  match ← peek with
  | some (.bool b) => drop; return b
  | t => throw (refuse t)

/-- A number, which must not be too large to be read at all. -/
def numeral : Reader Numeral := do
  match ← peek with
  | some (.number n) => if n.magnitude?.isSome then drop; return n else throw .malformed
  | t => throw (refuse t)

/-- An unsigned word, written with digits alone. -/
def word : Reader UInt64 := do
  match (← numeral).word? with
  | some n => return n
  | none => throw .mismatch

/-- The token that begins a value of the kind that is wanted. -/
def opening (t : Token) : Reader Unit := do
  let found ← peek
  if found = some t then drop else throw (refuse found)

/-- Whether another item of an array follows, and its comma; the closing bracket stays. -/
def nextItem (first : Bool) : Reader Bool := do
  match ← get with
  | [] => throw .truncated
  | .closeBracket :: _ => return false
  | .comma :: rest =>
    if first then return true
    else match rest with
      | [] => throw .truncated
      | .closeBracket :: _ => throw .malformed
      | _ => set rest; return true
  | _ => if first then return true else throw .malformed

def key : Reader String := do
  match ← peek with
  | none => throw .truncated
  | some (.string (some s)) => drop; return s
  | some (.broken true wanted _) => throw wanted
  | some _ => throw .malformed

/-- The key of the next member of an object, if there is one; the closing brace stays. -/
def nextKey (first : Bool) : Reader (Option String) := do
  match ← peek with
  | none => throw .truncated
  | some .closeBrace => return none
  | some .comma => if first then throw .malformed else drop; some <$> key
  | some _ => if first then some <$> key else throw .malformed

def colon : Reader Unit := do
  match ← peek with
  | none => throw .truncated
  | some .colon => drop
  | some _ => throw .malformed

/-- The end of an array or object, where nothing else may follow. -/
def closing (t : Token) : Reader Unit := do
  match ← peek with
  | none => throw .truncated
  | some found => if found = t then drop else throw .malformed

/-- The items of an array up to its end, with fuel for one item more than there are tokens. -/
def itemsLoop {α : Type} (item : Reader α) : Nat → Bool → List α → Reader (List α)
  | 0, _, _ => throw .malformed
  | fuel + 1, first, read => do
    if ← nextItem first then itemsLoop item fuel false ((← item) :: read)
    else return read.reverse

def array {α : Type} (item : Reader α) : Reader (List α) := do
  opening .openBracket
  let items ← itemsLoop item ((← get).length + 1) true []
  closing .closeBracket
  return items

/-- The members of an object up to its end, with fuel for one member more than there are tokens.
What has been read so far is handed from member to member. -/
def membersLoop {σ : Type} (member : String → σ → Reader σ) : Nat → Bool → σ → Reader σ
  | 0, _, _ => throw .malformed
  | fuel + 1, first, read => do
    match ← nextKey first with
    | some k => membersLoop member fuel false (← member k read)
    | none => return read

/-- The members of an object whose opening brace has been read. -/
def members {σ : Type} (member : String → σ → Reader σ) (start : σ) : Reader σ := do
  membersLoop member ((← get).length + 1) true start

end Reader

/-- The containers around a value, the innermost one first. -/
inductive Container
  | array | object
  deriving DecidableEq, Repr

/-- What may stand at a place between the tokens of a value that is passed over. -/
inductive Place
  | value | itemOrEnd | keyOrEnd | key | colon | after
  deriving DecidableEq, Repr

/-- What one token of a value that is passed over leads to. -/
def passToken (around : List Container) (place : Place) (t : Token) :
    Except Fault (List Container × Place) :=
  let value : Except Fault (List Container × Place) :=
    match t with
    | .null | .bool _ | .number _ | .string _ => .ok (around, .after)
    | .openBracket => .ok (.array :: around, .itemOrEnd)
    | .openBrace => .ok (.object :: around, .keyOrEnd)
    | .broken _ _ skipped => .error skipped
    | _ => .error .malformed
  let key : Except Fault (List Container × Place) :=
    match t with
    | .string _ => .ok (around, .colon)
    | .broken true _ skipped => .error skipped
    | _ => .error .malformed
  match place with
  | .value => value
  | .itemOrEnd => if t = .closeBracket then .ok (around.tail, .after) else value
  | .keyOrEnd => if t = .closeBrace then .ok (around.tail, .after) else key
  | .key => key
  | .colon => if t = .colon then .ok (around, .value) else .error .malformed
  | .after =>
    match around, t with
    | .array :: _, .comma => .ok (around, .value)
    | .object :: _, .comma => .ok (around, .key)
    | .array :: outer, .closeBracket => .ok (outer, .after)
    | .object :: outer, .closeBrace => .ok (outer, .after)
    | _, _ => .error .malformed

/-- What is left of the tokens behind a value that is passed over. -/
def passFrom (around : List Container) (place : Place) : List Token → Except Fault (List Token)
  | [] => if around.isEmpty && place == .after then .ok [] else .error .truncated
  | t :: ts =>
    if around.isEmpty && place == .after then .ok (t :: ts)
    else match passToken around place t with
      | .ok (around, place) => passFrom around place ts
      | .error f => .error f

/-- Passes over one value of any kind and depth. -/
def Reader.skip : Reader Unit := fun ts => (passFrom [] .value ts).map fun rest => ((), rest)

/-- Reads a text that holds one value and nothing else. -/
def Reader.run {α : Type} (r : Reader α) (text : String) : Except Fault α :=
  match StateT.run r (tokens text.toList) with
  | .ok (a, []) => .ok a
  | .ok (_, _ :: _) => .error .malformed
  | .error f => .error f

end WheelFarm.Json
