import WheelFarm.Binary64
import WheelFarm.Text.Scanner

/-! Tokens of a JSON text. Scanning goes through the characters once; where the text cannot go on,
the tokens end with one that says what is wrong. Blanks leave no trace. -/
namespace WheelFarm.Json

/-- What is wrong with a text: it ends too early, it breaks the grammar, or it holds another value
than the one that is wanted. -/
inductive Fault
  | truncated | malformed | mismatch
  deriving DecidableEq, Repr

/-- A number as it is written: all its digits, how many of them stand after the point, and the
power of ten by which it is multiplied. -/
structure Numeral where
  negative : Bool := false
  digits : Nat := 0
  places : Nat := 0
  power : Int := 0
  /-- Written with neither point nor power. -/
  plain : Bool := true
  deriving DecidableEq, Repr

namespace Numeral

def exponent (n : Numeral) : Int := n.power - n.places

/-- The absolute value as a binary number; none where that is too large. Powers that decide the
answer by themselves are not computed. -/
def magnitude? (n : Numeral) : Option Binary64 :=
  if n.digits = 0 then some ⟨0, Binary64.minExponent⟩
  else if 400 < n.exponent then none
  else if n.exponent < -(400 + Nat.log2 n.digits : Int) then some ⟨0, Binary64.minExponent⟩
  else
    let x := Binary64.ofDecimal n.digits n.exponent
    if x.isFinite then some x else none

def word? (n : Numeral) : Option UInt64 :=
  if n.plain && !n.negative && n.digits < 18446744073709551616 then some (.ofNat n.digits) else none

end Numeral

inductive Token
  | openBrace | closeBrace | openBracket | closeBracket | colon | comma
  | null
  | bool (b : Bool)
  | number (n : Numeral)
  /-- A string, without its text if that holds half of a surrogate pair. -/
  | string (text : Option String)
  /-- A token that the text does not finish: whether it began as a string, what is wrong for a
  reader who wants the value, and what for one who passes over it. -/
  | broken (quoted : Bool) (wanted skipped : Fault)
  deriving DecidableEq, Repr

/-- The part of a number that has just been read. -/
inductive NumberPart
  | minus | zero | whole | point | fraction | mark
  | sign (negative : Bool)
  | power (negative : Bool)
  deriving DecidableEq, Repr

/-- A string as far as it has been read, last character first. -/
structure Quoted where
  read : List Char := []
  /-- The first half of a surrogate pair, right behind which the second half must follow. -/
  half : Option Nat := none
  /-- No half of a surrogate pair has been found alone. -/
  whole : Bool := true
  deriving DecidableEq, Repr

namespace Quoted

/-- A first half that no second half follows. -/
def settle (q : Quoted) : Quoted :=
  match q.half with
  | none => q
  | some _ => { q with half := none, whole := false }

def push (q : Quoted) (c : Char) : Quoted :=
  let q := q.settle
  { q with read := c :: q.read }

/-- Takes in an escaped code unit. -/
def pushUnit (q : Quoted) (n : Nat) : Quoted :=
  if 0xDC00 ≤ n && n ≤ 0xDFFF then
    match q.half with
    | some first =>
      { q with
        read := Char.ofNat (0x10000 + (first - 0xD800) * 0x400 + (n - 0xDC00)) :: q.read
        half := none }
    | none => { q with whole := false }
  else if 0xD800 ≤ n && n ≤ 0xDBFF then
    if q.half.isSome then { q with half := none, whole := false } else { q with half := some n }
  else q.push (Char.ofNat n)

/-- The string is closed. -/
def close (q : Quoted) : Token :=
  let q := q.settle
  .string (if q.whole then some (String.ofList q.read.reverse) else none)

/-- The string cannot go on. A reader who wants it has been stopped by half a pair before. -/
def broken (q : Quoted) (f : Fault) : Token := .broken true (if q.whole then f else .malformed) f

end Quoted

inductive Scan
  | gap
  | word (rest : List Char) (token : Token)
  | number (part : NumberPart) (n : Numeral)
  | string (q : Quoted)
  | escape (q : Quoted)
  | unit (q : Quoted) (count value : Nat)
  deriving DecidableEq, Repr

def isBlank (c : Char) : Bool := c == ' ' || c == '\n' || c == '\t' || c == '\r'

def digitValue (c : Char) : Nat := c.toNat - '0'.toNat

def escaped? : Char → Option Char
  | '"' => some '"'
  | '\\' => some '\\'
  | '/' => some '/'
  | 'b' => some '\x08'
  | 'f' => some '\x0c'
  | 'n' => some '\n'
  | 'r' => some '\r'
  | 't' => some '\t'
  | _ => none

def byteLength (cs : List Char) : Nat := cs.foldl (fun bytes c => bytes + c.utf8Size) 0

/-- The outcome of reading one character: tokens that end with it, and what is read next unless
the text is broken. -/
abbrev Step := List Token × Option Scan

namespace Step

def go (s : Scan) : Step := ([], some s)

def done (t : Token) : Step := ([t], some .gap)

def stop (t : Token) : Step := ([t], none)

end Step

/-- A character that begins no token. -/
def junk : Token := .broken false .malformed .malformed

/-- Reads a character between two tokens. -/
def scanGap (c : Char) : Step :=
  if isBlank c then .go .gap
  else if c = '"' then .go (.string {})
  else if c = '-' then .go (.number .minus { negative := true })
  else if c = '0' then .go (.number .zero {})
  else if c.isDigit then .go (.number .whole { digits := digitValue c })
  else match c with
    | '\x7b' => .done .openBrace
    | '\x7d' => .done .closeBrace
    | '[' => .done .openBracket
    | ']' => .done .closeBracket
    | ':' => .done .colon
    | ',' => .done .comma
    | 'n' => .go (.word ['u', 'l', 'l'] .null)
    | 't' => .go (.word ['r', 'u', 'e'] (.bool true))
    | 'f' => .go (.word ['a', 'l', 's', 'e'] (.bool false))
    | _ => .stop junk

def Numeral.pushWhole (n : Numeral) (c : Char) : Numeral :=
  { n with digits := n.digits * 10 + digitValue c }

def Numeral.pushFraction (n : Numeral) (c : Char) : Numeral :=
  { n with digits := n.digits * 10 + digitValue c, places := n.places + 1 }

def Numeral.pushPower (n : Numeral) (negative : Bool) (c : Char) : Numeral :=
  { n with power := n.power * 10 + if negative then -(digitValue c : Int) else digitValue c }

def endNumber (n : Numeral) (c : Char) : Step :=
  let (tokens, next) := scanGap c
  (.number n :: tokens, next)

def scanNumber (part : NumberPart) (n : Numeral) (c : Char) : Step :=
  let more (part : NumberPart) (n : Numeral) : Step := .go (.number part n)
  match part with
  | .minus =>
    if c = '0' then more .zero n
    else if c.isDigit then more .whole (n.pushWhole c)
    else .stop junk
  | .zero =>
    if c.isDigit then .stop junk
    else if c = '.' then more .point { n with plain := false }
    else if c = 'e' || c = 'E' then more .mark { n with plain := false }
    else endNumber n c
  | .whole =>
    if c.isDigit then more .whole (n.pushWhole c)
    else if c = '.' then more .point { n with plain := false }
    else if c = 'e' || c = 'E' then more .mark { n with plain := false }
    else endNumber n c
  | .point => if c.isDigit then more .fraction (n.pushFraction c) else .stop junk
  | .fraction =>
    if c.isDigit then more .fraction (n.pushFraction c)
    else if c = 'e' || c = 'E' then more .mark n
    else endNumber n c
  | .mark =>
    if c = '+' then more (.sign false) n
    else if c = '-' then more (.sign true) n
    else if c.isDigit then more (.power false) (n.pushPower false c)
    else .stop junk
  | .sign negative =>
    if c.isDigit then more (.power negative) (n.pushPower negative c) else .stop junk
  | .power negative =>
    if c.isDigit then more (.power negative) (n.pushPower negative c) else endNumber n c

/-- Reads a character; the text behind it matters only for an escape that it breaks off. -/
def Scan.feed (s : Scan) (c : Char) (behind : List Char) : Step :=
  match s with
  | .gap => scanGap c
  | .word [] _ => .stop junk
  | .word [x] token => if c = x then .done token else .stop junk
  | .word (x :: y :: rest) token => if c = x then .go (.word (y :: rest) token) else .stop junk
  | .number part n => scanNumber part n c
  | .string q =>
    if c = '"' then .done q.close
    else if c = '\\' then .go (.escape q)
    else if c.toNat < 0x20 then .stop (q.broken .malformed)
    else .go (.string (q.push c))
  | .escape q =>
    if c = 'u' then .go (.unit q 0 0)
    else match escaped? c with
      | some d => .go (.string (q.push d))
      | none => .stop (q.broken .malformed)
  | .unit q count value =>
    match Text.hexDigit? c with
    | some d =>
      if count = 3 then .go (.string (q.pushUnit (value * 16 + d)))
      else .go (.unit q (count + 1) (value * 16 + d))
    | none =>
      if count + byteLength (c :: behind) < 4 then .stop (q.broken .truncated)
      else .stop (q.broken .malformed)

/-- The tokens that the end of the text adds. -/
def Scan.finish : Scan → List Token
  | .gap => []
  | .word .. => [.broken false .truncated .truncated]
  | .number part n =>
    match part with
    | .zero | .whole | .fraction | .power _ => [.number n]
    | .minus | .point | .mark | .sign _ => [.broken false .truncated .malformed]
  | .string q | .escape q | .unit q _ _ => [q.broken .truncated]

def scanFrom (s : Scan) : List Char → List Token
  | [] => s.finish
  | c :: cs =>
    match s.feed c cs with
    | (tokens, some next) => tokens ++ scanFrom next cs
    | (tokens, none) => tokens

def tokens (cs : List Char) : List Token := scanFrom .gap cs

end WheelFarm.Json
