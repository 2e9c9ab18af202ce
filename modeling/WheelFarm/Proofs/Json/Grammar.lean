import Mathlib.Data.List.Basic
import Mathlib.Data.List.Forall2
import WheelFarm.Proofs.Json.Reader
import WheelFarm.Proofs.Json.Tokens

/-! The grammar of JSON texts. A value is any text that the grammar derives: it may lie as deep as it
likes, its numbers may be of any size and its strings may hold halves of surrogate pairs. A reader
who passes over a value takes exactly the value. -/
namespace WheelFarm.Json

/-- A text of blanks, which may be empty. -/
def Blank (cs : List Char) : Prop := ∀ c ∈ cs, c = ' ' ∨ c = '\n' ∨ c = '\t' ∨ c = '\r'

/-- Four digits of base 16, and the number that they write. -/
inductive Code : List Char → Nat → Prop
  | mk {a b c d : Char} {k l m n : Nat} (first : Text.hexDigit? a = some k)
      (second : Text.hexDigit? b = some l) (third : Text.hexDigit? c = some m)
      (fourth : Text.hexDigit? d = some n) : Code [a, b, c, d] (((k * 16 + l) * 16 + m) * 16 + n)

/-- A piece of a string between its quotes, and the character that it stands for. -/
inductive Stands : List Char → Char → Prop
  | plain {c : Char} (quote : c ≠ '"') (slash : c ≠ '\\') (printable : 0x20 ≤ c.toNat) :
      Stands [c] c
  | short {e c : Char} (h : (e, c) ∈ [('"', '"'), ('\\', '\\'), ('/', '/'), ('b', '\x08'),
      ('f', '\x0c'), ('n', '\n'), ('r', '\r'), ('t', '\t')]) : Stands ['\\', e] c
  | unit {ds : List Char} {n : Nat} (code : Code ds n) (single : n < 0xD800 ∨ 0xDFFF < n) :
      Stands ('\\' :: 'u' :: ds) (.ofNat n)
  | pair {ds es : List Char} {m n : Nat} (first : Code ds m) (second : Code es n)
      (high : 0xD800 ≤ m ∧ m ≤ 0xDBFF) (low : 0xDC00 ≤ n ∧ n ≤ 0xDFFF) :
      Stands ('\\' :: 'u' :: (ds ++ '\\' :: 'u' :: es))
        (.ofNat (0x10000 + (m - 0xD800) * 0x400 + (n - 0xDC00)))

/-- A character or an escape, be it half of a surrogate pair or not. -/
inductive Piece : List Char → Prop
  | plain {c : Char} (quote : c ≠ '"') (slash : c ≠ '\\') (printable : 0x20 ≤ c.toNat) : Piece [c]
  | short {e : Char} (h : e ∈ ['"', '\\', '/', 'b', 'f', 'n', 'r', 't']) : Piece ['\\', e]
  | unit {ds : List Char} {n : Nat} (code : Code ds n) : Piece ('\\' :: 'u' :: ds)

inductive StringText : List Char → Prop
  | mk {pieces : List (List Char)} (h : ∀ p ∈ pieces, Piece p) :
      StringText ('"' :: (pieces.flatten ++ ['"']))

/-- A string that stands for a text. -/
inductive Names (s : String) : List Char → Prop
  | mk {pieces : List (List Char)} (h : List.Forall₂ Stands pieces s.toList) :
      Names s ('"' :: (pieces.flatten ++ ['"']))

inductive FractionText : List Char → Prop
  | none : FractionText []
  | digits {ds : List Char} (ne : ds ≠ []) (h : ∀ c ∈ ds, c.isDigit = true) : FractionText ('.' :: ds)

inductive PowerText : List Char → Prop
  | none : PowerText []
  | digits {mark : Char} {sign ds : List Char} (hmark : mark = 'e' ∨ mark = 'E')
      (hsign : sign = [] ∨ sign = ['+'] ∨ sign = ['-']) (ne : ds ≠ [])
      (h : ∀ c ∈ ds, c.isDigit = true) : PowerText (mark :: (sign ++ ds))

inductive NumberText : List Char → Prop
  | mk {sign whole fraction power : List Char} (hsign : sign = [] ∨ sign = ['-'])
      (hwhole : WholePart whole) (hfraction : FractionText fraction) (hpower : PowerText power) :
      NumberText (sign ++ (whole ++ (fraction ++ power)))

/-- What the grammar derives: values, and the items and members between the brackets of a value that
has some. -/
inductive Part
  | value | items | members
  deriving DecidableEq, Repr

inductive Derives : Part → List Char → Prop
  | null : Derives .value "null".toList
  | true : Derives .value "true".toList
  | false : Derives .value "false".toList
  | number {cs : List Char} (h : NumberText cs) : Derives .value cs
  | string {cs : List Char} (h : StringText cs) : Derives .value cs
  | noItems {b : List Char} (h : Blank b) : Derives .value ('[' :: (b ++ [']']))
  | array {cs : List Char} (h : Derives .items cs) : Derives .value ('[' :: (cs ++ [']']))
  | noMembers {b : List Char} (h : Blank b) : Derives .value ('\x7b' :: (b ++ ['\x7d']))
  | object {cs : List Char} (h : Derives .members cs) : Derives .value ('\x7b' :: (cs ++ ['\x7d']))
  | item {front cs back : List Char} (hfront : Blank front) (h : Derives .value cs)
      (hback : Blank back) : Derives .items (front ++ (cs ++ back))
  | moreItems {cs ds : List Char} (h : Derives .items cs) (more : Derives .items ds) :
      Derives .items (cs ++ ',' :: ds)
  | member {front key b b' cs back : List Char} (hfront : Blank front) (hkey : StringText key)
      (hb : Blank b) (hb' : Blank b') (h : Derives .value cs) (hback : Blank back) :
      Derives .members (front ++ ((key ++ (b ++ ':' :: (b' ++ cs))) ++ back))
  | moreMembers {cs ds : List Char} (h : Derives .members cs) (more : Derives .members ds) :
      Derives .members (cs ++ ',' :: ds)

/-- A value of any kind and depth. -/
def ValueText (cs : List Char) : Prop := Derives .value cs

section Blanks
variable {b b' cs ds rest : List Char} {ts us : List Token}

lemma Blank.delimits (h : Blank b) (hrest : Delimits rest) : Delimits (b ++ rest) := by
  cases b with
  | nil => exact hrest
  | cons c b =>
    refine delimits_cons ?_
    rcases h c List.mem_cons_self with rfl | rfl | rfl | rfl <;> decide

lemma Blank.scanFrom (h : Blank b) (rest : List Char) :
    scanFrom .gap (b ++ rest) = scanFrom .gap rest := by
  induction b with
  | nil => rfl
  | cons c b ih =>
    obtain ⟨hc, hb⟩ := List.forall_mem_cons.mp h
    have hblank : Scan.gap.feed c (b ++ rest) = .go .gap := by
      rcases hc with rfl | rfl | rfl | rfl <;> rfl
    rw [List.cons_append, scanFrom_of_go hblank, ih hb]

lemma Scans.padded (h : Scans cs ts) (hb : Blank b) (hb' : Blank b') :
    Scans (b ++ (cs ++ b')) ts := by
  intro rest hrest
  rw [List.append_assoc, List.append_assoc, hb.scanFrom, h _ (hb'.delimits hrest), hb'.scanFrom]

lemma scans_blank (h : Blank b) : Scans b [] := fun rest _ => h.scanFrom rest

lemma Scans.append (h : Scans cs ts) (h' : Scans ds us) (hne : ds ≠ []) (hd : Delimits ds) :
    Scans (cs ++ ds) (ts ++ us) := by
  intro rest hrest
  have hdelimits : Delimits (ds ++ rest) := by
    cases ds with
    | nil => exact absurd rfl hne
    | cons c ds => exact delimits_cons (hd c rfl)
  rw [List.append_assoc, h _ hdelimits, h' rest hrest, List.append_assoc]

lemma Scans.mark {c : Char} {t : Token} (hc : ∀ cs, scanFrom .gap (c :: cs) = t :: scanFrom .gap cs)
    (h : Scans cs ts) : Scans (c :: cs) (t :: ts) := by
  intro rest hrest
  rw [List.cons_append, hc, h rest hrest]
  rfl

lemma scans_nil : Scans [] [] := fun _ _ => rfl

lemma scans_keyed {key : List Char} {t : Token} (hkey : Scans key [t]) (hb : Blank b)
    (hb' : Blank b') (h : Scans cs ts) :
    Scans (key ++ (b ++ ':' :: (b' ++ cs))) (t :: .colon :: ts) := by
  have hvalue : Scans (b' ++ cs) ts := by
    intro rest hrest
    rw [List.append_assoc, hb'.scanFrom, h rest hrest]
  have hcolon : Scans (b ++ ':' :: (b' ++ cs)) (.colon :: ts) := by
    intro rest hrest
    rw [List.append_assoc, hb.scanFrom, hvalue.mark scanFrom_colon rest hrest]
  refine hkey.append hcolon (by simp) ?_
  exact hb.delimits (delimits_cons (by decide))

end Blanks

section Strings
variable {q : Quoted} {ds rest : List Char} {n : Nat}

lemma Code.scanFrom (h : Code ds n) :
    scanFrom (.unit q 0 0) (ds ++ rest) = scanFrom (.string (q.pushUnit n)) rest := by
  obtain ⟨ha, hb, hc, hd⟩ := h
  have hfeed {x : Char} {k count value : Nat} (hx : Text.hexDigit? x = some k) (hcount : count ≠ 3)
      (behind : List Char) : (Scan.unit q count value).feed x behind =
        .go (.unit q (count + 1) (value * 16 + k)) := by
    simp [Scan.feed, hx, hcount]
  simp only [List.cons_append, List.nil_append]
  rw [scanFrom_of_go (hfeed ha (by decide) _), scanFrom_of_go (hfeed hb (by decide) _),
    scanFrom_of_go (hfeed hc (by decide) _)]
  refine scanFrom_of_go ?_
  simp [Scan.feed, hd]

lemma scanFrom_unit (h : Code ds n) :
    scanFrom (.string q) ('\\' :: 'u' :: (ds ++ rest)) = scanFrom (.string (q.pushUnit n)) rest := by
  rw [scanFrom_of_go (u := .escape q) rfl, scanFrom_of_go (u := .unit q 0 0) rfl, h.scanFrom]

lemma Stands.scanFrom {cs : List Char} {c : Char} (h : Stands cs c) (hq : q.half = none) :
    scanFrom (.string q) (cs ++ rest) = scanFrom (.string (q.push c)) rest := by
  cases h with
  | plain quote slash printable =>
    refine scanFrom_of_go ?_
    rw [Scan.feed, if_neg quote, if_neg slash, if_neg (by omega)]
  | @short e _ h =>
    simp only [List.mem_cons, List.not_mem_nil, or_false, Prod.mk.injEq] at h
    rcases h with ⟨rfl, rfl⟩ | ⟨rfl, rfl⟩ | ⟨rfl, rfl⟩ | ⟨rfl, rfl⟩ | ⟨rfl, rfl⟩ | ⟨rfl, rfl⟩ |
      ⟨rfl, rfl⟩ | ⟨rfl, rfl⟩ <;> rfl
  | @unit ds n code single =>
    have hpush : q.pushUnit n = q.push (.ofNat n) := by
      rw [Quoted.pushUnit, if_neg (by simp; omega), if_neg (by simp; omega)]
    rw [List.cons_append, List.cons_append, scanFrom_unit code, hpush]
  | @pair ds es m n first second high low =>
    have hfirst : q.pushUnit m = { q with half := some m } := by
      rw [Quoted.pushUnit, if_neg (by simp; omega), if_pos (by simp; omega), hq]
      rfl
    have hsecond : Quoted.pushUnit { q with half := some m } n =
        q.push (.ofNat (0x10000 + (m - 0xD800) * 0x400 + (n - 0xDC00))) := by
      rw [Quoted.pushUnit, if_pos (by simp; omega), Quoted.push, Quoted.settle, hq]
      simp [hq]
    rw [List.cons_append, List.cons_append, List.append_assoc, scanFrom_unit first,
      List.cons_append, List.cons_append, scanFrom_unit second, hfirst, hsecond]

lemma scanFrom_stands {pieces : List (List Char)} {cs : List Char}
    (h : List.Forall₂ Stands pieces cs) (read rest : List Char) :
    scanFrom (.string { read }) (pieces.flatten ++ '"' :: rest) =
      .string (some (String.ofList (read.reverse ++ cs))) :: scanFrom .gap rest := by
  induction h generalizing read with
  | nil =>
    rw [List.append_nil]
    exact scanFrom_of_done rfl
  | @cons p c pieces cs hp _ ih =>
    rw [List.flatten_cons, List.append_assoc, hp.scanFrom rfl]
    have := ih (c :: read)
    rw [List.reverse_cons, List.append_assoc] at this
    exact this

/-- A string is scanned as the text that it stands for. -/
theorem Names.scans {s : String} {cs : List Char} (h : Names s cs) : Scans cs [.string (some s)] := by
  obtain ⟨hpieces⟩ := h
  intro rest _
  rw [List.cons_append, List.append_assoc, scanFrom_of_go (u := .string {}) rfl,
    List.singleton_append, scanFrom_stands hpieces, List.reverse_nil, List.nil_append,
    String.ofList_toList]
  rfl

lemma Piece.exists_scanFrom {cs : List Char} (h : Piece cs) (q : Quoted) :
    ∃ q', ∀ rest, Json.scanFrom (.string q) (cs ++ rest) = Json.scanFrom (.string q') rest := by
  cases h with
  | @plain c quote slash printable =>
    refine ⟨q.push c, fun rest => scanFrom_of_go ?_⟩
    rw [Scan.feed, if_neg quote, if_neg slash, if_neg (by omega)]
  | @short e h =>
    simp only [List.mem_cons, List.not_mem_nil, or_false] at h
    rcases h with rfl | rfl | rfl | rfl | rfl | rfl | rfl | rfl <;> exact ⟨_, fun rest => rfl⟩
  | unit code => exact ⟨_, fun rest => scanFrom_unit code⟩

lemma exists_scanFrom_pieces {pieces : List (List Char)} (h : ∀ p ∈ pieces, Piece p) (q : Quoted) :
    ∃ q', ∀ rest, scanFrom (.string q) (pieces.flatten ++ rest) = scanFrom (.string q') rest := by
  induction pieces generalizing q with
  | nil => exact ⟨q, fun rest => rfl⟩
  | cons p pieces ih =>
    obtain ⟨hp, hpieces⟩ := List.forall_mem_cons.mp h
    obtain ⟨q', hq'⟩ := hp.exists_scanFrom q
    obtain ⟨q'', hq''⟩ := ih hpieces q'
    refine ⟨q'', fun rest => ?_⟩
    rw [List.flatten_cons, List.append_assoc, hq', hq'']

/-- Every string is one token. -/
theorem StringText.exists_scans {cs : List Char} (h : StringText cs) :
    ∃ s, Scans cs [.string s] := by
  obtain ⟨hpieces⟩ := h
  obtain ⟨q, hq⟩ := exists_scanFrom_pieces hpieces {}
  obtain ⟨s, hs⟩ : ∃ s, q.close = .string s := ⟨_, rfl⟩
  refine ⟨s, fun rest _ => ?_⟩
  rw [List.cons_append, List.append_assoc, scanFrom_of_go (u := .string {}) rfl, hq]
  exact scanFrom_of_done (congrArg Step.done hs)

end Strings

section Numbers
variable {n : Numeral} {part : NumberPart} {ds rest : List Char}

/-- The parts of a number that go on with any digit. -/
def NumberPart.TakesDigits (part : NumberPart) : Prop :=
  ∀ n c, c.isDigit = true → ∃ n', scanNumber part n c = .go (.number part n')

lemma takesDigits_whole : NumberPart.whole.TakesDigits := fun n c hc =>
  ⟨n.pushWhole c, by simp [scanNumber, hc]⟩

lemma takesDigits_fraction : NumberPart.fraction.TakesDigits := fun n c hc =>
  ⟨n.pushFraction c, by simp [scanNumber, hc]⟩

lemma takesDigits_power (negative : Bool) : (NumberPart.power negative).TakesDigits := fun n c hc =>
  ⟨n.pushPower negative c, by simp [scanNumber, hc]⟩

lemma exists_scanFrom_digits (h : part.TakesDigits) (hds : ∀ c ∈ ds, c.isDigit = true)
    (n : Numeral) :
    ∃ n', ∀ rest, scanFrom (.number part n) (ds ++ rest) = scanFrom (.number part n') rest := by
  induction ds generalizing n with
  | nil => exact ⟨n, fun rest => rfl⟩
  | cons c ds ih =>
    obtain ⟨hc, hds⟩ := List.forall_mem_cons.mp hds
    obtain ⟨n', hn'⟩ := h n c hc
    obtain ⟨n'', hn''⟩ := ih hds n'
    have hfeed (rest : List Char) : (Scan.number part n).feed c (ds ++ rest) = .go (.number part n') :=
      hn'
    exact ⟨n'', fun rest => (scanFrom_of_go (hfeed rest)).trans (hn'' rest)⟩

lemma exists_scanFrom_whole {sign : List Char} (hsign : sign = [] ∨ sign = ['-'])
    (h : WholePart ds) : ∃ n, ∀ rest : List Char, (∀ c ∈ rest.head?, c.isDigit = false) →
      scanFrom .gap (sign ++ (ds ++ rest)) = scanFrom (.number .whole n) rest := by
  rcases hsign with rfl | rfl
  · exact ⟨_, fun rest hrest => scanFrom_wholePart h hrest⟩
  have hminus (cs : List Char) : scanFrom .gap (['-'] ++ cs) =
      scanFrom (.number .minus { negative := true }) cs := scanFrom_of_go rfl
  rcases h with rfl | ⟨hne, hzero, hdigits⟩
  · exact ⟨{ negative := true }, fun rest hrest =>
      (hminus _).trans ((scanFrom_of_go rfl).trans (scanFrom_zero hrest))⟩
  · cases ds with
    | nil => exact absurd rfl hne
    | cons c ds =>
      obtain ⟨hc, hds⟩ := List.forall_mem_cons.mp hdigits
      have hc0 : c ≠ '0' := fun h => hzero (congrArg some h)
      have hfirst (rest : List Char) : (Scan.number .minus { negative := true }).feed c rest =
          .go (.number .whole (Numeral.pushWhole { negative := true } c)) := by
        simp [Scan.feed, scanNumber, hc, hc0]
      obtain ⟨n, hn⟩ := exists_scanFrom_digits takesDigits_whole hds
        (Numeral.pushWhole { negative := true } c)
      exact ⟨n, fun rest _ =>
        (hminus _).trans ((scanFrom_of_go (hfirst _)).trans (hn rest))⟩

lemma exists_scanFrom_fraction {fraction : List Char} (h : FractionText fraction) (n : Numeral) :
    ∃ part n', (part = .whole ∨ part = .fraction) ∧ ∀ rest,
      scanFrom (.number .whole n) (fraction ++ rest) = scanFrom (.number part n') rest := by
  cases h with
  | none => exact ⟨_, n, .inl rfl, fun rest => rfl⟩
  | @digits ds ne h =>
    cases ds with
    | nil => exact absurd rfl ne
    | cons c ds =>
      obtain ⟨hc, hds⟩ := List.forall_mem_cons.mp h
      have hfirst (rest : List Char) : (Scan.number .point { n with plain := false }).feed c rest =
          .go (.number .fraction (Numeral.pushFraction { n with plain := false } c)) := by
        simp [Scan.feed, scanNumber, hc]
      obtain ⟨n', hn'⟩ := exists_scanFrom_digits takesDigits_fraction hds
        (Numeral.pushFraction { n with plain := false } c)
      refine ⟨_, n', .inr rfl, fun rest => ?_⟩
      exact (scanFrom_of_go (u := .number .point { n with plain := false }) rfl).trans
        ((scanFrom_of_go (hfirst _)).trans (hn' rest))

lemma exists_scanFrom_power {power : List Char} (h : PowerText power)
    (hpart : part = .whole ∨ part = .fraction) (n : Numeral) :
    ∃ part' n', part'.Final ∧ ∀ rest,
      scanFrom (.number part n) (power ++ rest) = scanFrom (.number part' n') rest := by
  cases h with
  | none =>
    refine ⟨part, n, ?_, fun rest => rfl⟩
    rcases hpart with rfl | rfl <;> trivial
  | @digits mark sign ds hmark hsign ne h =>
    obtain ⟨n₁, hn₁⟩ : ∃ n₁, ∀ rest, scanFrom (.number part n) (mark :: rest) =
        scanFrom (.number .mark n₁) rest := by
      rcases hpart with rfl | rfl <;> rcases hmark with rfl | rfl <;>
        exact ⟨_, fun rest => scanFrom_of_go rfl⟩
    cases ds with
    | nil => exact absurd rfl ne
    | cons c ds =>
      obtain ⟨hc, hds⟩ := List.forall_mem_cons.mp h
      obtain ⟨negative, n₂, hn₂⟩ : ∃ negative n₂, ∀ rest,
          scanFrom (.number .mark n₁) (sign ++ c :: rest) =
            scanFrom (.number (.power negative) n₂) rest := by
        have hsigned (negative : Bool) (rest : List Char) :
            (Scan.number (.sign negative) n₁).feed c rest =
              .go (.number (.power negative) (n₁.pushPower negative c)) := by
          simp [Scan.feed, scanNumber, hc]
        rcases hsign with rfl | rfl | rfl
        · refine ⟨false, n₁.pushPower false c, fun rest => scanFrom_of_go ?_⟩
          have hplus : c ≠ '+' := fun h => by rw [h] at hc; exact absurd hc (by decide)
          have hminus : c ≠ '-' := fun h => by rw [h] at hc; exact absurd hc (by decide)
          simp [Scan.feed, scanNumber, hc, hplus, hminus]
        · exact ⟨false, _, fun rest => (scanFrom_of_go rfl).trans (scanFrom_of_go (hsigned _ _))⟩
        · exact ⟨true, _, fun rest => (scanFrom_of_go rfl).trans (scanFrom_of_go (hsigned _ _))⟩
      obtain ⟨n₃, hn₃⟩ := exists_scanFrom_digits (takesDigits_power negative) hds n₂
      refine ⟨.power negative, n₃, trivial, fun rest => ?_⟩
      rw [List.cons_append, hn₁, List.append_assoc, List.cons_append, hn₂, hn₃]

lemma head?_behind {fraction power : List Char} (hfraction : FractionText fraction)
    (hpower : PowerText power) (hrest : Delimits rest) :
    ∀ c ∈ (fraction ++ (power ++ rest)).head?, c.isDigit = false := by
  intro c hc
  cases hfraction with
  | digits => cases hc; rfl
  | none =>
    cases hpower with
    | none => exact (hrest c hc).1
    | digits hmark =>
      cases hc
      rcases hmark with rfl | rfl <;> rfl

/-- Every number is one token. -/
theorem NumberText.exists_scans {cs : List Char} (h : NumberText cs) :
    ∃ n, Scans cs [.number n] := by
  obtain ⟨hsign, hwhole, hfraction, hpower⟩ := h
  obtain ⟨n, hn⟩ := exists_scanFrom_whole hsign hwhole
  obtain ⟨part, n', hpart, hn'⟩ := exists_scanFrom_fraction hfraction n
  obtain ⟨part', n'', hfinal, hn''⟩ := exists_scanFrom_power hpower hpart n'
  refine ⟨n'', fun rest hrest => ?_⟩
  simp only [List.append_assoc]
  rw [hn _ (head?_behind hfraction hpower hrest), hn', hn'', scanFrom_delimited hfinal hrest]
  rfl

end Numbers

section Passing
variable {around outer : List Container} {t : Token} {ts us : List Token} {cs ds : List Char}

lemma passFrom_of_ok {place place' : Place} {around' : List Container}
    (hplace : place ≠ .after) (h : passToken around place t = .ok (around', place')) :
    passFrom around place (t :: ts) = passFrom around' place' ts := by
  rw [passFrom]
  simp [hplace, h]

lemma passFrom_itemOrEnd (ht : t ≠ .closeBracket) :
    passFrom around .itemOrEnd (t :: ts) = passFrom around .value (t :: ts) := by
  rw [passFrom, passFrom]
  simp [passToken, ht]

lemma passFrom_keyOrEnd (ht : t ≠ .closeBrace) :
    passFrom around .keyOrEnd (t :: ts) = passFrom around .key (t :: ts) := by
  rw [passFrom, passFrom]
  simp [passToken, ht]

/-- The containers inside which a part of a value stands. -/
def Part.inside : Part → List Container → List Container
  | .value, outer => outer
  | .items, outer => .array :: outer
  | .members, outer => .object :: outer

def Part.place : Part → Place
  | .value | .items => .value
  | .members => .key

/-- A part of a value that a reader passes over, which its first token does not end. -/
structure Passed (p : Part) (ts : List Token) : Prop where
  begins : ∃ t us, ts = t :: us ∧ t ≠ .closeBracket ∧ t ≠ .closeBrace
  passes : ∀ outer us, passFrom (p.inside outer) p.place (ts ++ us) =
    passFrom (p.inside outer) .after us

lemma passed_single (h : ∀ around, passToken around .value t = .ok (around, .after)) :
    Passed .value [t] where
  begins := by
    refine ⟨t, [], rfl, ?_, ?_⟩ <;>
    · rintro rfl
      cases h []
  passes outer us := passFrom_of_ok (by decide) (h outer)

lemma Passed.array (h : Passed .items ts) : Passed .value (.openBracket :: (ts ++ [.closeBracket])) where
  begins := ⟨_, _, rfl, by simp, by simp⟩
  passes outer us := by
    obtain ⟨t, ts', rfl, hbracket, -⟩ := h.begins
    have hitems := h.passes outer (.closeBracket :: us)
    simp only [List.cons_append, List.append_assoc, List.nil_append] at hitems ⊢
    rw [passFrom_of_ok (by decide) (by rfl), passFrom_itemOrEnd hbracket]
    exact hitems

lemma Passed.object (h : Passed .members ts) :
    Passed .value (.openBrace :: (ts ++ [.closeBrace])) where
  begins := ⟨_, _, rfl, by simp, by simp⟩
  passes outer us := by
    obtain ⟨t, ts', rfl, -, hbrace⟩ := h.begins
    have hmembers := h.passes outer (.closeBrace :: us)
    simp only [List.cons_append, List.append_assoc, List.nil_append] at hmembers ⊢
    rw [passFrom_of_ok (by decide) (by rfl), passFrom_keyOrEnd hbrace]
    exact hmembers

lemma Passed.items (h : Passed .value ts) : Passed .items ts where
  begins := h.begins
  passes outer us := h.passes (.array :: outer) us

lemma Passed.member {s : Option String} (h : Passed .value ts) :
    Passed .members (.string s :: .colon :: ts) where
  begins := ⟨_, _, rfl, by simp, by simp⟩
  passes outer us := by
    simp only [List.cons_append]
    rw [Part.inside, Part.place, passFrom_of_ok (by decide) (by rfl),
      passFrom_of_ok (by decide) (by rfl)]
    exact h.passes (.object :: outer) us

lemma Passed.more {p : Part} (hp : p ≠ .value) (h : Passed p ts) (h' : Passed p us) :
    Passed p (ts ++ .comma :: us) where
  begins := by
    obtain ⟨t, ts', rfl, ht⟩ := h.begins
    exact ⟨t, _, rfl, ht⟩
  passes outer vs := by
    have hmore := h'.passes outer vs
    rw [List.append_assoc, h.passes]
    cases p with
    | value => exact absurd rfl hp
    | items => exact hmore
    | members => exact hmore

/-- Whatever the grammar derives is passed over. -/
theorem Derives.exists_passed {p : Part} (h : Derives p cs) : ∃ ts, Scans cs ts ∧ Passed p ts := by
  have hbracket : Scans [']'] [.closeBracket] := scans_nil.mark scanFrom_closeBracket
  have hbrace : Scans ['\x7d'] [.closeBrace] := scans_nil.mark scanFrom_closeBrace
  have hdelimits : Delimits [']'] ∧ Delimits ['\x7d'] :=
    ⟨delimits_cons (by decide), delimits_cons (by decide)⟩
  induction h with
  | null => exact ⟨[.null], fun _ _ => rfl, passed_single fun _ => rfl⟩
  | true => exact ⟨[.bool Bool.true], fun _ _ => rfl, passed_single fun _ => rfl⟩
  | false => exact ⟨[.bool Bool.false], fun _ _ => rfl, passed_single fun _ => rfl⟩
  | number h =>
    obtain ⟨n, hn⟩ := h.exists_scans
    exact ⟨_, hn, passed_single fun _ => rfl⟩
  | string h =>
    obtain ⟨s, hs⟩ := h.exists_scans
    exact ⟨_, hs, passed_single fun _ => rfl⟩
  | noItems hb =>
    refine ⟨_, ((scans_blank hb).append hbracket (by simp) hdelimits.1).mark scanFrom_openBracket,
      ⟨_, _, rfl, by simp, by simp⟩, fun outer us => ?_⟩
    exact (passFrom_of_ok (by decide) rfl).trans (passFrom_of_ok (by decide) rfl)
  | array _ ih =>
    obtain ⟨ts, hscans, hpassed⟩ := ih
    exact ⟨_, (hscans.append hbracket (by simp) hdelimits.1).mark scanFrom_openBracket,
      hpassed.array⟩
  | noMembers hb =>
    refine ⟨_, ((scans_blank hb).append hbrace (by simp) hdelimits.2).mark scanFrom_openBrace,
      ⟨_, _, rfl, by simp, by simp⟩, fun outer us => ?_⟩
    exact (passFrom_of_ok (by decide) rfl).trans (passFrom_of_ok (by decide) rfl)
  | object _ ih =>
    obtain ⟨ts, hscans, hpassed⟩ := ih
    exact ⟨_, (hscans.append hbrace (by simp) hdelimits.2).mark scanFrom_openBrace, hpassed.object⟩
  | item hfront _ hback ih =>
    obtain ⟨ts, hscans, hpassed⟩ := ih
    exact ⟨_, hscans.padded hfront hback, hpassed.items⟩
  | moreItems _ _ ih ih' =>
    obtain ⟨ts, hscans, hpassed⟩ := ih
    obtain ⟨us, hscans', hpassed'⟩ := ih'
    exact ⟨_, hscans.append (hscans'.mark scanFrom_comma) (by simp) (delimits_cons (by decide)),
      hpassed.more (by decide) hpassed'⟩
  | member hfront hkey hb hb' _ hback ih =>
    obtain ⟨s, hs⟩ := hkey.exists_scans
    obtain ⟨ts, hscans, hpassed⟩ := ih
    exact ⟨_, (scans_keyed hs hb hb' hscans).padded hfront hback, hpassed.member⟩
  | moreMembers _ _ ih ih' =>
    obtain ⟨ts, hscans, hpassed⟩ := ih
    obtain ⟨us, hscans', hpassed'⟩ := ih'
    exact ⟨_, hscans.append (hscans'.mark scanFrom_comma) (by simp) (delimits_cons (by decide)),
      hpassed.more (by decide) hpassed'⟩

/-- A reader who passes over a value takes the value and nothing behind it. -/
theorem ValueText.exists_takes (h : ValueText cs) : ∃ ts, Scans cs ts ∧ Takes Reader.skip ts () := by
  obtain ⟨ts, hscans, hpassed⟩ := Derives.exists_passed h
  refine ⟨ts, hscans, fun rest => ?_⟩
  have hend : passFrom [] .after rest = .ok rest := by cases rest <;> rfl
  have hskip : passFrom [] .value (ts ++ rest) = .ok rest := (hpassed.passes [] rest).trans hend
  show (passFrom [] .value (ts ++ rest)).map (fun rest => ((), rest)) = _
  rw [hskip]
  rfl

end Passing

end WheelFarm.Json
