import Mathlib.Data.List.Forall2
import WheelFarm.Proofs.Json.Numeral
import WheelFarm.Proofs.Json.Reader
import WheelFarm.Proofs.Json.Tokens
import WheelFarm.Report.Encode

/-! The tokens of what is written into a report: strings with any characters, whole numbers,
seconds in each of their notations, arrays and objects. -/
namespace WheelFarm.Report
open Json

section Strings
variable {q : Quoted} {rest : List Char}

lemma hexDigit?_hexChar {n : Nat} (h : n < 16) : Text.hexDigit? (hexChar n) = some n := by
  have hall : ∀ k < 16, Text.hexDigit? (hexChar k) = some k := by decide
  exact hall n h

lemma scanFrom_controlChar {c : Char} (h : c.toNat < 0x20) :
    scanFrom (.string q)
      ('\\' :: 'u' :: '0' :: '0' :: hexChar (c.toNat / 16) :: hexChar (c.toNat % 16) :: rest) =
      scanFrom (.string (q.push c)) rest := by
  have hhigh : (Scan.unit q 2 0).feed (hexChar (c.toNat / 16)) (hexChar (c.toNat % 16) :: rest) =
      .go (.unit q 3 (c.toNat / 16)) := by
    simp [Scan.feed, hexDigit?_hexChar (show c.toNat / 16 < 16 by omega)]
  have hlow : (Scan.unit q 3 (c.toNat / 16)).feed (hexChar (c.toNat % 16)) rest =
      .go (.string (q.push c)) := by
    have hcode : c.toNat / 16 * 16 + c.toNat % 16 = c.toNat := by omega
    have hunit : q.pushUnit c.toNat = q.push c := by
      rw [Quoted.pushUnit, if_neg (by simp; omega), if_neg (by simp; omega), Char.ofNat_toNat]
    simp only [Scan.feed, hexDigit?_hexChar (Nat.mod_lt _ (by decide)), if_true, hcode, hunit]
  rw [scanFrom_of_go (u := .escape q) rfl, scanFrom_of_go (u := .unit q 0 0) rfl,
    scanFrom_of_go (u := .unit q 1 0) rfl, scanFrom_of_go (u := .unit q 2 0) rfl,
    scanFrom_of_go hhigh, scanFrom_of_go hlow]

lemma scanFrom_encodeChar (c : Char) :
    scanFrom (.string q) (encodeChar c ++ rest) = scanFrom (.string (q.push c)) rest := by
  unfold encodeChar
  split
  iterate 7 rfl
  · next hquote hslash _ _ _ _ _ =>
    split_ifs with h
    · exact scanFrom_controlChar h
    · refine scanFrom_of_go ?_
      rw [Scan.feed, if_neg hquote, if_neg hslash, if_neg h]

lemma scanFrom_encodeChars (cs read rest : List Char) :
    scanFrom (.string { read }) (cs.flatMap encodeChar ++ '"' :: rest) =
      .string (some (String.ofList (read.reverse ++ cs))) :: scanFrom .gap rest := by
  induction cs generalizing read with
  | nil =>
    rw [List.append_nil]
    exact scanFrom_of_done rfl
  | cons c cs ih =>
    rw [List.flatMap_cons, List.append_assoc, scanFrom_encodeChar]
    have := ih (c :: read)
    rw [List.reverse_cons, List.append_assoc] at this
    exact this

theorem scans_encodeString (s : String) : Scans (encodeString s) [.string (some s)] := by
  intro rest _
  have h := scanFrom_encodeChars s.toList [] rest
  rw [List.reverse_nil, List.nil_append, String.ofList_toList] at h
  rw [encodeString, List.cons_append, List.cons_append, List.append_assoc,
    scanFrom_of_go (u := .string {}) rfl]
  exact h

end Strings

section Numbers

lemma head?_toDigits {n : Nat} (h : 0 < n) : (Nat.toDigits 10 n).head? ≠ some '0' := by
  induction n using Nat.strongRecOn with
  | ind n ih =>
    rw [Nat.toDigits_eq_if (by decide)]
    split_ifs with hn
    · simpa using h.ne'
    · rw [List.head?_append_of_ne_nil _ Nat.toDigits_ne_nil]
      exact ih (n / 10) (by omega) (by omega)

lemma isDigit_toDigits (n : Nat) : ∀ c ∈ Nat.toDigits 10 n, c.isDigit = true :=
  fun _ hc => Nat.isDigit_of_mem_toDigits (by decide) (by decide) hc

theorem wholePart_toDigits (n : Nat) : WholePart (Nat.toDigits 10 n) := by
  rcases Nat.eq_zero_or_pos n with rfl | h
  · exact .inl (Nat.toDigits_zero 10)
  · exact .inr ⟨Nat.toDigits_ne_nil, head?_toDigits h, isDigit_toDigits n⟩

theorem scans_encodeNat (n : Nat) : Scans (encodeNat n) [.number { digits := n }] := by
  have h := Literal.scans_text (l := { whole := Nat.toDigits 10 n })
    ⟨wholePart_toDigits n, by simp, by simp⟩
  simpa [Literal.text, Literal.fractionText, Literal.powerText, Literal.numeral, encodeNat] using h

theorem scans_encodeBool (b : Bool) : Scans (encodeBool b) [.bool b] := by
  intro rest _
  cases b <;> rfl

end Numbers

section Decimals
variable {d : Decimal}

lemma wholePart_of_head {ds : List Char} (hne : ds ≠ []) (h : 0 < d.digits)
    (hhead : ds.head? = (Nat.toDigits 10 d.digits).head?) (hds : ∀ c ∈ ds, c.isDigit = true) :
    WholePart ds :=
  .inr ⟨hne, hhead ▸ head?_toDigits h, hds⟩

lemma literal_padded (h : 0 < d.digits) (he : 0 ≤ d.exponent) :
    ∃ l : Literal, l.Valid ∧ l.numeral.value = d.value ∧ l.power = none ∧
      l.text = Nat.toDigits 10 d.digits ++ List.replicate d.exponent.toNat '0' ++ ['.', '0'] := by
  refine ⟨{ whole := Nat.toDigits 10 d.digits ++ List.replicate d.exponent.toNat '0',
            fraction := ['0'] }, ⟨?_, by simp, by simp⟩, ?_, rfl, ?_⟩
  · refine wholePart_of_head (by simp [Nat.toDigits_ne_nil]) h
      (List.head?_append_of_ne_nil _ Nat.toDigits_ne_nil) ?_
    intro c hc
    rcases List.mem_append.mp hc with hc | hc
    · exact isDigit_toDigits _ c hc
    · rw [(List.mem_replicate.mp hc).2]
      rfl
  · have hpow : (10 : ℚ) ^ d.exponent = 10 ^ d.exponent.toNat := by
      rw [← zpow_natCast, Int.toNat_of_nonneg he]
    simp only [Numeral.value, Literal.numeral, Numeral.exponent, Decimal.value, hpow,
      Nat.ofDigitChars_append, Nat.ofDigitChars_ten_toDigits, Nat.ofDigitChars_replicate_zero]
    simp [Nat.ofDigitChars_cons]
    ring
  · simp [Literal.text, Literal.fractionText, Literal.powerText]

/-- The digits of a number with a point behind the first ones of them. -/
def splitLiteral (d : Decimal) (k : Nat) (power : Option (Bool × List Char)) : Literal where
  whole := (Nat.toDigits 10 d.digits).take k
  fraction := (Nat.toDigits 10 d.digits).drop k
  power

lemma valid_splitLiteral (h : 0 < d.digits) {k : Nat} (hk : 0 < k)
    {power : Option (Bool × List Char)}
    (hpower : ∀ p ∈ power, p.2 ≠ [] ∧ ∀ c ∈ p.2, c.isDigit = true) :
    (splitLiteral d k power).Valid where
  whole := by
    refine wholePart_of_head ?_ h ?_ fun c hc => isDigit_toDigits _ c (List.mem_of_mem_take hc)
    · rw [splitLiteral, ne_eq, List.take_eq_nil_iff, not_or]
      exact ⟨hk.ne', Nat.toDigits_ne_nil⟩
    · rw [splitLiteral, List.head?_take, if_neg hk.ne']
  fraction c hc := isDigit_toDigits _ c (List.mem_of_mem_drop hc)
  power := hpower

lemma value_splitLiteral {k : Nat} {power : Option (Bool × List Char)}
    (hk : k ≤ (Nat.toDigits 10 d.digits).length)
    (he : (splitLiteral d k power).numeral.power =
      d.exponent + (Nat.toDigits 10 d.digits).length - k) :
    (splitLiteral d k power).numeral.value = d.value := by
  have hexponent : (splitLiteral d k power).numeral.exponent = d.exponent := by
    rw [Numeral.exponent, he]
    simp only [Literal.numeral, splitLiteral, List.length_drop]
    omega
  rw [Numeral.value, hexponent, Literal.numeral, splitLiteral, List.take_append_drop,
    Nat.ofDigitChars_ten_toDigits, Decimal.value]

lemma literal_below (zeros : Nat)
    (he : d.exponent = -(zeros + (Nat.toDigits 10 d.digits).length : Int)) :
    ∃ l : Literal, l.Valid ∧ l.numeral.value = d.value ∧ l.power = none ∧
      l.text = '0' :: '.' :: List.replicate zeros '0' ++ Nat.toDigits 10 d.digits := by
  refine ⟨{ whole := ['0'], fraction := List.replicate zeros '0' ++ Nat.toDigits 10 d.digits },
    ⟨.inl rfl, ?_, by simp⟩, ?_, rfl, ?_⟩
  · intro c hc
    rcases List.mem_append.mp hc with hc | hc
    · rw [(List.mem_replicate.mp hc).2]
      rfl
    · exact isDigit_toDigits _ c hc
  · have hexponent : (0 : Int) - (List.replicate zeros '0' ++ Nat.toDigits 10 d.digits).length =
        d.exponent := by
      rw [List.length_append, List.length_replicate, he]
      omega
    simp only [Numeral.value, Literal.numeral, Numeral.exponent, Decimal.value, hexponent,
      Nat.ofDigitChars_append, Nat.ofDigitChars_replicate_zero]
    simp [Nat.ofDigitChars_cons]
  · simp [Literal.text, Literal.fractionText, Literal.powerText, Nat.toDigits_ne_nil]

lemma literal_scientific (h : 0 < d.digits) {power : Int}
    (he : power = d.exponent + (Nat.toDigits 10 d.digits).length - 1) :
    ∃ l : Literal, l.Valid ∧ l.numeral.value = d.value ∧ l.whole.length = 1 ∧
      l.text = (Nat.toDigits 10 d.digits).take 1 ++
        (if (Nat.toDigits 10 d.digits).length = 1 then []
          else '.' :: (Nat.toDigits 10 d.digits).drop 1) ++
        'e' :: (if power < 0 then '-' else '+') :: Nat.toDigits 10 power.natAbs := by
  have hlen : 0 < (Nat.toDigits 10 d.digits).length := Nat.length_toDigits_pos
  refine ⟨splitLiteral d 1 (some (decide (power < 0), Nat.toDigits 10 power.natAbs)),
    valid_splitLiteral h Nat.one_pos ?_, value_splitLiteral hlen ?_, ?_, ?_⟩
  · rintro _ ⟨⟩
    exact ⟨Nat.toDigits_ne_nil, isDigit_toDigits _⟩
  · simp only [Literal.numeral, splitLiteral, Nat.ofDigitChars_ten_toDigits, signed,
      decide_eq_true_eq]
    split_ifs <;> omega
  · simp only [splitLiteral, List.length_take]
    omega
  · have hdrop : (Nat.toDigits 10 d.digits).drop 1 = [] ↔
        (Nat.toDigits 10 d.digits).length = 1 := by
      rw [List.drop_eq_nil_iff]
      omega
    simp only [Literal.text, Literal.fractionText, Literal.powerText, splitLiteral, hdrop,
      decide_eq_true_eq]

/-- In each of its notations a decimal is a number of the same value. One with a power of ten has a
single digit in front of the point. -/
theorem literal_encodeDecimal (h : 0 < d.digits) :
    ∃ l : Literal, l.Valid ∧ l.numeral.value = d.value ∧ (l.power = none ∨ l.whole.length = 1) ∧
      l.text = encodeDecimal d := by
  simp only [encodeDecimal]
  split
  · split
    · next he =>
      obtain ⟨l, hvalid, hvalue, hpower, htext⟩ := literal_padded h he
      exact ⟨l, hvalid, hvalue, .inl hpower, htext⟩
    · split
      · next hneg hpower =>
        set k := (d.exponent + (Nat.toDigits 10 d.digits).length - 1).toNat + 1 with hk
        have hlt : k < (Nat.toDigits 10 d.digits).length := by omega
        refine ⟨splitLiteral d k none, valid_splitLiteral h (by omega) (by simp),
          value_splitLiteral hlt.le ?_, .inl rfl, ?_⟩
        · simp only [Literal.numeral, splitLiteral]
          omega
        · have hdrop : (Nat.toDigits 10 d.digits).drop k ≠ [] := by
            rw [ne_eq, List.drop_eq_nil_iff]
            omega
          simp [Literal.text, Literal.fractionText, Literal.powerText, splitLiteral, hdrop]
      · obtain ⟨l, hvalid, hvalue, hpower, htext⟩ := literal_below (d := d)
          (-(d.exponent + (Nat.toDigits 10 d.digits).length - 1) - 1).toNat (by omega)
        exact ⟨l, hvalid, hvalue, .inl hpower, htext⟩
  · obtain ⟨l, hvalid, hvalue, hwhole, htext⟩ := literal_scientific h rfl
    exact ⟨l, hvalid, hvalue, .inr hwhole, htext⟩

/-- Seconds are written as a number that is read as the same value. -/
theorem literal_encodeSeconds {x : Binary64} (hx : x.Canonical) (hfinite : x.isFinite = true) :
    ∃ l : Literal, l.Valid ∧ l.numeral.magnitude? = some x ∧
      (l.power = none ∨ l.whole.length = 1) ∧ l.text = encodeSeconds x := by
  by_cases hzero : x.mantissa = 0
  · refine ⟨⟨['0'], ['0'], none⟩, ⟨.inl rfl, by simp, by simp⟩, ?_, .inl rfl, ?_⟩
    · have he : x.exponent = Binary64.minExponent :=
        hx.full.resolve_right (by rw [hzero]; decide)
      rw [show x = ⟨0, Binary64.minExponent⟩ by rw [← hzero, ← he]]
      rfl
    · rw [encodeSeconds, if_pos hzero]
      rfl
  · have hread := Binary64.ofDecimal_shortest hx hzero
    have hdigits : 0 < x.shortest.digits := by
      refine Nat.pos_of_ne_zero fun h => hzero ?_
      rw [h, Binary64.ofDecimal_zero] at hread
      rw [← hread]
    obtain ⟨l, hvalid, hvalue, hpower, htext⟩ := literal_encodeDecimal hdigits
    refine ⟨l, hvalid, ?_, hpower, ?_⟩
    · rw [Numeral.magnitude?_eq, Binary64.ofDecimal_congr hvalue, hread, if_pos hfinite]
    · rw [encodeSeconds, if_neg hzero, ← htext]

theorem scans_encodeSeconds {x : Binary64} (hx : x.Canonical) (hfinite : x.isFinite = true) :
    ∃ n : Numeral, n.negative = false ∧ n.magnitude? = some x ∧
      Scans (encodeSeconds x) [.number n] := by
  obtain ⟨l, hvalid, hmagnitude, -, htext⟩ := literal_encodeSeconds hx hfinite
  exact ⟨l.numeral, rfl, hmagnitude, htext ▸ Literal.scans_text hvalid⟩

end Decimals

section Containers
variable {css : List (List Char)} {tss : List (List Token)} {rest : List Char}

lemma delimits_items (hrest : Delimits rest) : Delimits (css.flatMap (',' :: ·) ++ rest) := by
  cases css with
  | nil => exact hrest
  | cons cs css => exact delimits_cons (by decide)

lemma scanFrom_items (h : List.Forall₂ Scans css tss) (hrest : Delimits rest) :
    scanFrom .gap (css.flatMap (',' :: ·) ++ rest) =
      tss.flatMap (.comma :: ·) ++ scanFrom .gap rest := by
  induction h with
  | nil => rfl
  | @cons cs ts css tss hitem _ ih =>
    simp only [List.flatMap_cons, List.cons_append, List.append_assoc]
    rw [scanFrom_comma, hitem _ (delimits_items hrest), ih]

lemma scans_enclose {first last : Char} {t u : Token}
    (hfirst : ∀ cs, scanFrom .gap (first :: cs) = t :: scanFrom .gap cs)
    (hlast : ∀ cs, scanFrom .gap (last :: cs) = u :: scanFrom .gap cs)
    (hdelimits : last.isDigit = false ∧ last ≠ '.' ∧ last ≠ 'e' ∧ last ≠ 'E')
    (h : List.Forall₂ Scans css tss) :
    Scans (enclose first last css) (t :: ([.comma].intercalate tss ++ [u])) := by
  intro rest _
  have hend : Delimits (last :: rest) := delimits_cons hdelimits
  simp only [enclose, List.cons_append, List.append_assoc, List.nil_append]
  rw [hfirst]
  cases h with
  | nil => rw [List.intercalate_nil, List.nil_append, hlast]; rfl
  | @cons cs ts css tss hitem hitems =>
    simp only [intercalate_cons, List.append_assoc]
    rw [hitem _ (delimits_items hend), scanFrom_items hitems hend, hlast]

theorem scans_encodeArray (h : List.Forall₂ Scans css tss) :
    Scans (encodeArray css) (.openBracket :: ([.comma].intercalate tss ++ [.closeBracket])) :=
  scans_enclose scanFrom_openBracket scanFrom_closeBracket (by decide) h

lemma scans_member {cs : List Char} {ts : List Token} (k : String) (h : Scans cs ts) :
    Scans (encodeString k ++ ':' :: cs) (.string (some k) :: .colon :: ts) := by
  intro rest hrest
  rw [List.append_assoc, List.cons_append, scans_encodeString k _ (delimits_cons (by decide)),
    scanFrom_colon, h rest hrest]
  rfl

/-- An object is scanned as its members, each with the tokens behind its key. -/
theorem scans_encodeObject {ms : List (String × List Char)} {ns : List (String × List Token)}
    (h : List.Forall₂ (fun m n => m.1 = n.1 ∧ ∃ ts, n.2 = .colon :: ts ∧ Scans m.2 ts) ms ns) :
    Scans (encodeObject ms)
      (.openBrace :: ([.comma].intercalate (ns.map Reader.memberTokens) ++ [.closeBrace])) := by
  refine scans_enclose scanFrom_openBrace scanFrom_closeBrace (by decide) ?_
  rw [List.forall₂_map_left_iff, List.forall₂_map_right_iff]
  refine h.imp fun m n hm => ?_
  obtain ⟨hkey, ts, hts, hscans⟩ := hm
  rw [Reader.memberTokens, hts, hkey]
  exact scans_member n.1 hscans

end Containers

end WheelFarm.Report
