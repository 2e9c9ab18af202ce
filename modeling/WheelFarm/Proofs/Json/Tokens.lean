import Mathlib.Tactic.Lemma
import Mathlib.Tactic.Ring
import Mathlib.Tactic.SplitIfs
import WheelFarm.Json.Token

/-! What a text is scanned as. A piece of text stands for the same tokens wherever it begins
between two tokens and nothing behind it goes on with its number. -/
namespace WheelFarm.Json

/-- What stands behind a number: nothing, or a character that does not go on with it. -/
def Delimits (cs : List Char) : Prop :=
  ∀ c ∈ cs.head?, c.isDigit = false ∧ c ≠ '.' ∧ c ≠ 'e' ∧ c ≠ 'E'

/-- A text that stands for given tokens. -/
def Scans (cs : List Char) (ts : List Token) : Prop :=
  ∀ rest, Delimits rest → scanFrom .gap (cs ++ rest) = ts ++ scanFrom .gap rest

theorem delimits_nil : Delimits [] := by simp [Delimits]

theorem delimits_cons {c : Char} {cs : List Char}
    (h : c.isDigit = false ∧ c ≠ '.' ∧ c ≠ 'e' ∧ c ≠ 'E') : Delimits (c :: cs) := by
  intro d hd
  cases hd
  exact h

section Steps
variable {s u : Scan} {c : Char} {cs : List Char} {t : Token}

theorem scanFrom_of_go (h : s.feed c cs = .go u) : scanFrom s (c :: cs) = scanFrom u cs := by
  rw [scanFrom, h]
  rfl

theorem scanFrom_of_done (h : s.feed c cs = .done t) :
    scanFrom s (c :: cs) = t :: scanFrom .gap cs := by
  rw [scanFrom, h]
  rfl

end Steps

theorem tokens_of_scans {cs : List Char} {ts : List Token} (h : Scans cs ts) : tokens cs = ts := by
  have := h [] delimits_nil
  rwa [List.append_nil, scanFrom, Scan.finish, List.append_nil] at this

section Marks
variable (cs : List Char)

theorem scanFrom_openBrace : scanFrom .gap ('\x7b' :: cs) = .openBrace :: scanFrom .gap cs :=
  scanFrom_of_done rfl

theorem scanFrom_closeBrace : scanFrom .gap ('\x7d' :: cs) = .closeBrace :: scanFrom .gap cs :=
  scanFrom_of_done rfl

theorem scanFrom_openBracket : scanFrom .gap ('[' :: cs) = .openBracket :: scanFrom .gap cs :=
  scanFrom_of_done rfl

theorem scanFrom_closeBracket : scanFrom .gap (']' :: cs) = .closeBracket :: scanFrom .gap cs :=
  scanFrom_of_done rfl

theorem scanFrom_colon : scanFrom .gap (':' :: cs) = .colon :: scanFrom .gap cs :=
  scanFrom_of_done rfl

theorem scanFrom_comma : scanFrom .gap (',' :: cs) = .comma :: scanFrom .gap cs :=
  scanFrom_of_done rfl

end Marks

section Numbers
variable {n : Numeral} {part : NumberPart} {ds rest : List Char}

/-- A number may end behind these parts of it. -/
def NumberPart.Final : NumberPart → Prop
  | .zero | .whole | .fraction | .power _ => True
  | _ => False

/-- Digits of the whole part of a number: zero alone, or no zero in front. -/
def WholePart (ds : List Char) : Prop :=
  ds = ['0'] ∨ (ds ≠ [] ∧ ds.head? ≠ some '0' ∧ ∀ c ∈ ds, c.isDigit = true)

theorem scanFrom_delimited (hp : part.Final) (h : Delimits rest) :
    scanFrom (.number part n) rest = .number n :: scanFrom .gap rest := by
  cases rest with
  | nil => cases part <;> first | rfl | exact hp.elim
  | cons c cs =>
    obtain ⟨hd, hdot, he, hE⟩ := h c rfl
    have hend : (Scan.number part n).feed c cs = endNumber n c := by
      cases part <;> simp [Scan.feed, scanNumber, hd, hdot, he, hE, NumberPart.Final] at hp ⊢
    rw [scanFrom, scanFrom, hend]
    simp only [endNumber, Scan.feed]
    rcases scanGap c with ⟨ts, _ | s⟩ <;> rfl

lemma scanFrom_zero (h : ∀ c ∈ rest.head?, c.isDigit = false) :
    scanFrom (.number .zero n) rest = scanFrom (.number .whole n) rest := by
  cases rest with
  | nil => rfl
  | cons c cs =>
    have hfeed : (Scan.number .zero n).feed c cs = (Scan.number .whole n).feed c cs := by
      simp [Scan.feed, scanNumber, h c rfl]
    rw [scanFrom, scanFrom, hfeed]

lemma scanFrom_wholeDigits (h : ∀ c ∈ ds, c.isDigit = true) :
    scanFrom (.number .whole n) (ds ++ rest) =
      scanFrom (.number .whole { n with digits := Nat.ofDigitChars 10 ds n.digits }) rest := by
  induction ds generalizing n with
  | nil => rfl
  | cons c cs ih =>
    have hc : (Scan.number .whole n).feed c (cs ++ rest) = .go (.number .whole (n.pushWhole c)) := by
      simp [Scan.feed, scanNumber, h c List.mem_cons_self]
    rw [List.cons_append, scanFrom_of_go hc, ih fun d hd => h d (List.mem_cons_of_mem _ hd),
      Nat.ofDigitChars_cons, Nat.mul_comm]
    rfl

lemma scanFrom_fractionDigits (h : ∀ c ∈ ds, c.isDigit = true) :
    scanFrom (.number .fraction n) (ds ++ rest) =
      scanFrom (.number .fraction { n with
        digits := Nat.ofDigitChars 10 ds n.digits, places := n.places + ds.length }) rest := by
  induction ds generalizing n with
  | nil => rfl
  | cons c cs ih =>
    have hc : (Scan.number .fraction n).feed c (cs ++ rest) =
        .go (.number .fraction (n.pushFraction c)) := by
      simp [Scan.feed, scanNumber, h c List.mem_cons_self]
    rw [List.cons_append, scanFrom_of_go hc, ih fun d hd => h d (List.mem_cons_of_mem _ hd),
      Nat.ofDigitChars_cons, Nat.mul_comm, List.length_cons, Nat.add_comm cs.length,
      ← Nat.add_assoc]
    rfl

/-- The power of ten that a sign and digits write. -/
def signed (negative : Bool) (n : Nat) : Int := if negative then -(n : Int) else n

lemma scanFrom_powerDigits {negative : Bool} {power : Nat} (h : ∀ c ∈ ds, c.isDigit = true)
    (hn : n.power = signed negative power) :
    scanFrom (.number (.power negative) n) (ds ++ rest) =
      scanFrom (.number (.power negative) { n with
        power := signed negative (Nat.ofDigitChars 10 ds power) }) rest := by
  induction ds generalizing n power with
  | nil => simp [← hn]
  | cons c cs ih =>
    have hc : (Scan.number (.power negative) n).feed c (cs ++ rest) =
        .go (.number (.power negative) (n.pushPower negative c)) := by
      simp [Scan.feed, scanNumber, h c List.mem_cons_self]
    have hpush : (n.pushPower negative c).power = signed negative (10 * power + digitValue c) := by
      cases negative <;> simp [Numeral.pushPower, hn, signed] <;> ring
    rw [List.cons_append, scanFrom_of_go hc, ih (fun d hd => h d (List.mem_cons_of_mem _ hd)) hpush,
      Nat.ofDigitChars_cons]
    rfl

lemma scanGap_of_isDigit {c : Char} (h : c.isDigit = true) (hzero : c ≠ '0') :
    scanGap c = .go (.number .whole { digits := digitValue c }) := by
  have hne : ∀ d : Char, d.isDigit = false → c ≠ d := by
    rintro d hd rfl
    exact Bool.false_ne_true (hd.symm.trans h)
  have hblank : isBlank c = false := by
    simp [isBlank, hne ' ' rfl, hne '\n' rfl, hne '\t' rfl, hne '\r' rfl]
  simp [scanGap, hblank, hne '"' rfl, hne '-' rfl, hzero, h]

lemma scanFrom_wholePart (h : WholePart ds) (hrest : ∀ c ∈ rest.head?, c.isDigit = false) :
    scanFrom .gap (ds ++ rest) =
      scanFrom (.number .whole { digits := Nat.ofDigitChars 10 ds 0 }) rest := by
  rcases h with rfl | ⟨hne, hzero, hdigits⟩
  · rw [List.singleton_append, scanFrom_of_go (u := .number .zero {}) rfl, scanFrom_zero hrest]
    rfl
  · cases ds with
    | nil => exact absurd rfl hne
    | cons c cs =>
      have hd : c.isDigit = true := hdigits c List.mem_cons_self
      have hc : Scan.gap.feed c (cs ++ rest) = .go (.number .whole { digits := digitValue c }) :=
        scanGap_of_isDigit hd fun h => hzero (congrArg some h)
      rw [List.cons_append, scanFrom_of_go hc,
        scanFrom_wholeDigits fun d hd => hdigits d (List.mem_cons_of_mem _ hd),
        Nat.ofDigitChars_cons, Nat.mul_zero, Nat.zero_add]
      rfl

lemma scanFrom_mark (hp : part = .whole ∨ part = .fraction)
    (hplain : part = .fraction → n.plain = false) :
    scanFrom (.number part n) ('e' :: rest) =
      scanFrom (.number .mark { n with plain := false }) rest := by
  refine scanFrom_of_go ?_
  rcases hp with rfl | rfl
  · rfl
  · rw [← hplain rfl]
    rfl

lemma scanFrom_sign {negative : Bool} (hne : ds ≠ []) (h : ∀ c ∈ ds, c.isDigit = true)
    (hn : n.power = 0) :
    scanFrom (.number .mark n) ((if negative then '-' else '+') :: (ds ++ rest)) =
      scanFrom (.number (.power negative) { n with
        power := signed negative (Nat.ofDigitChars 10 ds 0) }) rest := by
  cases ds with
  | nil => exact absurd rfl hne
  | cons c cs =>
    have hsign : (Scan.number .mark n).feed (if negative then '-' else '+') (c :: (cs ++ rest)) =
        .go (.number (.sign negative) n) := by
      cases negative <;> rfl
    have hfirst : (Scan.number (.sign negative) n).feed c (cs ++ rest) =
        .go (.number (.power negative) (n.pushPower negative c)) := by
      simp [Scan.feed, scanNumber, h c List.mem_cons_self]
    have hpower : (n.pushPower negative c).power = signed negative (digitValue c) := by
      cases negative <;> simp [Numeral.pushPower, hn, signed]
    rw [List.cons_append, scanFrom_of_go hsign, scanFrom_of_go hfirst,
      scanFrom_powerDigits (fun d hd => h d (List.mem_cons_of_mem _ hd)) hpower,
      Nat.ofDigitChars_cons, Nat.mul_zero, Nat.zero_add]
    rfl

end Numbers

/-- The characters of a number without a sign in front. -/
structure Literal where
  whole : List Char
  /-- The digits behind the point, which is left out along with them. -/
  fraction : List Char := []
  /-- The power of ten: whether it has a minus, and its digits. -/
  power : Option (Bool × List Char) := none

namespace Literal

def fractionText (l : Literal) : List Char := if l.fraction = [] then [] else '.' :: l.fraction

def powerText (l : Literal) : List Char :=
  match l.power with
  | none => []
  | some (negative, ds) => 'e' :: (if negative then '-' else '+') :: ds

def text (l : Literal) : List Char := l.whole ++ l.fractionText ++ l.powerText

/-- The number that the characters write. -/
def numeral (l : Literal) : Numeral where
  digits := Nat.ofDigitChars 10 (l.whole ++ l.fraction) 0
  places := l.fraction.length
  power := match l.power with
    | none => 0
    | some (negative, ds) => signed negative (Nat.ofDigitChars 10 ds 0)
  plain := l.fraction.isEmpty && l.power.isNone

structure Valid (l : Literal) : Prop where
  whole : WholePart l.whole
  fraction : ∀ c ∈ l.fraction, c.isDigit = true
  power : ∀ p ∈ l.power, p.2 ≠ [] ∧ ∀ c ∈ p.2, c.isDigit = true

variable {l : Literal} {n : Numeral} {rest : List Char}

lemma scanFrom_fractionText (h : ∀ c ∈ l.fraction, c.isDigit = true) (hn : n.plain = true) :
    scanFrom (.number .whole n) (l.fractionText ++ rest) =
      scanFrom (.number (if l.fraction = [] then .whole else .fraction) { n with
        digits := Nat.ofDigitChars 10 l.fraction n.digits
        places := n.places + l.fraction.length
        plain := l.fraction.isEmpty }) rest := by
  cases hf : l.fraction with
  | nil => simp [fractionText, hf, ← hn]
  | cons c cs =>
    have hc : (Scan.number .point { n with plain := false }).feed c (cs ++ rest) =
        .go (.number .fraction (Numeral.pushFraction { n with plain := false } c)) := by
      simp [Scan.feed, scanNumber, h c (by simp [hf])]
    have hcs : ∀ d ∈ cs, d.isDigit = true := fun d hd => h d (by simp [hf, hd])
    simp only [fractionText, hf, reduceCtorEq, if_false, List.cons_append]
    rw [scanFrom_of_go (u := .number .point { n with plain := false }) rfl, scanFrom_of_go hc,
      scanFrom_fractionDigits hcs, Nat.ofDigitChars_cons, Nat.mul_comm, List.length_cons,
      Nat.add_comm cs.length, ← Nat.add_assoc]
    rfl

lemma scanFrom_powerText {part : NumberPart} (hp : part = .whole ∨ part = .fraction)
    (h : ∀ p ∈ l.power, p.2 ≠ [] ∧ ∀ c ∈ p.2, c.isDigit = true) (hn : n.power = 0)
    (hplain : part = .fraction → n.plain = false) (hrest : Delimits rest) :
    scanFrom (.number part n) (l.powerText ++ rest) =
      .number { n with
        power := l.numeral.power
        plain := n.plain && l.power.isNone } :: scanFrom .gap rest := by
  cases hl : l.power with
  | none =>
    have hfinal : part.Final := by rcases hp with rfl | rfl <;> trivial
    simp [powerText, numeral, hl, ← hn, scanFrom_delimited hfinal hrest]
  | some p =>
    obtain ⟨negative, ds⟩ := p
    obtain ⟨hne, hds⟩ : ds ≠ [] ∧ ∀ c ∈ ds, c.isDigit = true := h _ hl
    simp only [powerText, hl, List.cons_append]
    have hfinal : (NumberPart.power negative).Final := trivial
    rw [scanFrom_mark hp hplain, scanFrom_sign (n := { n with plain := false }) hne hds hn,
      scanFrom_delimited hfinal hrest]
    simp [numeral, hl]

lemma head?_behind_whole (hrest : Delimits rest) :
    ∀ c ∈ (l.fractionText ++ (l.powerText ++ rest)).head?, c.isDigit = false := by
  intro c hc
  rw [fractionText, powerText] at hc
  split_ifs at hc with hf
  · split at hc
    · exact (hrest c hc).1
    · cases hc
      rfl
  · cases hc
    rfl

/-- A number is scanned as what its characters write. -/
theorem scans_text (h : l.Valid) : Scans l.text [.number l.numeral] := by
  intro rest hrest
  rw [text, List.append_assoc, List.append_assoc,
    scanFrom_wholePart h.whole (head?_behind_whole hrest), scanFrom_fractionText h.fraction rfl]
  have hpart : (if l.fraction = [] then NumberPart.whole else .fraction) = .whole ∨
      (if l.fraction = [] then NumberPart.whole else .fraction) = .fraction := by
    split_ifs <;> simp
  rw [scanFrom_powerText hpart h.power rfl ?_ hrest]
  · simp only [numeral, Nat.ofDigitChars_append, Nat.zero_add]
    rfl
  · split_ifs with hf
    · exact fun hw => by cases hw
    · exact fun _ => by simpa using hf

end Literal

end WheelFarm.Json
