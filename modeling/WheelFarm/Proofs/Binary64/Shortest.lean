import Mathlib.Algebra.Order.Floor.Semifield
import WheelFarm.Binary64.Shortest
import WheelFarm.Proofs.Binary64.Rounding

/-! The shortest decimal of a value reads back as that value: seventeen digits are always enough,
since decimals of that many digits lie closer together than binary values. -/
namespace WheelFarm

/-- The exact value. -/
def Decimal.value (d : Decimal) : ℚ := d.digits * 10 ^ d.exponent

namespace Binary64
variable {x : Binary64} {a b : Nat}

section OfDecimal
variable {digits digits' : Nat} {e e' : Int}

lemma decimal_fraction (digits : Nat) (e : Int) :
    ((digits * Nat.pow 10 e.toNat : Nat) : ℚ) / (Nat.pow 10 (-e).toNat : Nat) =
      digits * 10 ^ e := by
  have h := scaled_div 10 (by decide) digits 1 (-e)
  simp only [neg_neg, one_mul, Nat.cast_one, div_one, zpow_neg, div_inv_eq_mul,
    Nat.cast_ofNat] at h
  exact h

/-- A decimal is read by its value alone. -/
theorem ofDecimal_congr (h : (digits : ℚ) * 10 ^ e = digits' * 10 ^ e') :
    ofDecimal digits e = ofDecimal digits' e' := by
  refine ofRatio_congr (Nat.pow_pos (by decide)) (Nat.pow_pos (by decide)) ?_
  rw [decimal_fraction, decimal_fraction, h]

theorem ofDecimal_zero (e : Int) : ofDecimal 0 e = ⟨0, minExponent⟩ := by
  rw [ofDecimal, Nat.zero_mul]
  rfl

theorem canonical_ofDecimal : (ofDecimal digits e).Canonical :=
  canonical_ofRatio (Nat.pow_pos (by decide))

/-- A decimal within one part in 2^54 of a value is read as it. -/
theorem ofDecimal_eq_of_close (hx : x.Canonical) (hd : 0 < digits)
    (h : |digits * 10 ^ e - x.value| ≤ digits * 10 ^ e / 2 ^ 54) : ofDecimal digits e = x := by
  refine ofRatio_eq_of_close (Nat.mul_pos hd (Nat.pow_pos (by decide)))
    (Nat.pow_pos (by decide)) hx ?_
  rw [decimal_fraction]
  exact h

end OfDecimal

section Length

theorem lt_pow_decimalLength (n : Nat) : n < 10 ^ decimalLength n :=
  (Nat.length_toDigits_le_iff (by decide) Nat.length_toDigits_pos).mp le_rfl

theorem pow_decimalLength_le {n : Nat} (h : 0 < n) : 10 ^ (decimalLength n - 1) ≤ n := by
  rcases Nat.eq_zero_or_pos (decimalLength n - 1) with h₀ | h₀
  · rw [h₀]
    exact h
  · refine Nat.le_of_not_lt fun hlt => ?_
    have hle : decimalLength n ≤ decimalLength n - 1 :=
      (Nat.length_toDigits_le_iff (by decide) h₀).mpr hlt
    omega

theorem floorLog10_eq (ha : 0 < a) (hb : 0 < b) :
    floorLog10 a b = Int.log 10 ((a : ℚ) / b) := by
  have ha' : (0 : ℚ) < a := Nat.cast_pos.mpr ha
  have hb' : (0 : ℚ) < b := Nat.cast_pos.mpr hb
  rw [floorLog10]
  split_ifs with h
  · set n := decimalLength (a / b) with hn
    have hlen : 0 < n := Nat.length_toDigits_pos
    have hlo : 10 ^ (n - 1) * b ≤ a :=
      (Nat.le_div_iff_mul_le hb).mp (pow_decimalLength_le (Nat.div_pos h hb))
    have hhi : a < 10 ^ n * b := (Nat.div_lt_iff_lt_mul hb).mp (lt_pow_decimalLength _)
    refine (log_eq (by decide) ?_ ?_).symm
    · rw [le_div_iff₀ hb', show (n : Int) - 1 = (n - 1 : Nat) by omega, zpow_natCast]
      exact mod_cast hlo
    · rw [div_lt_iff₀ hb', sub_add_cancel, zpow_natCast]
      exact mod_cast hhi
  · set n := decimalLength ((b - 1) / a) with hn
    have hlen : 0 < n := Nat.length_toDigits_pos
    have hlo : 10 ^ (n - 1) * a ≤ b - 1 :=
      (Nat.le_div_iff_mul_le ha).mp (pow_decimalLength_le (Nat.div_pos (by omega) ha))
    have hhi : b - 1 < 10 ^ n * a := (Nat.div_lt_iff_lt_mul ha).mp (lt_pow_decimalLength _)
    refine (log_eq (by decide) ?_ ?_).symm
    · rw [zpow_neg, le_div_iff₀ hb', inv_mul_le_iff₀ (by positivity), zpow_natCast]
      exact mod_cast (by omega : b ≤ 10 ^ n * a)
    · rw [show -(n : Int) + 1 = -((n - 1 : Nat) : Int) by omega, zpow_neg, zpow_natCast,
        div_lt_iff₀ hb', lt_inv_mul_iff₀ (by positivity)]
      exact mod_cast (by omega : 10 ^ (n - 1) * a < b)

end Length

lemma enclosing_spec (x : Binary64) (count : Nat) :
    let e := floorLog10 x.num x.den + 1 - count
    let below := ⌊x.value / 10 ^ e⌋₊
    (enclosing x count).1 = ⟨below, e⟩ ∧
      (enclosing x count).2.value = (below + 1 : Nat) * 10 ^ e := by
  intro e below
  have hbelow : x.num * Nat.pow 10 (-e).toNat / (x.den * Nat.pow 10 e.toNat) = below := by
    have h := scaled_div 10 (by decide) x.num x.den e
    rw [Nat.cast_ofNat, num_div_den] at h
    rw [← Nat.floor_div_eq_div (K := ℚ), h]
  simp only [enclosing]
  change (⟨x.num * Nat.pow 10 (-e).toNat / (x.den * Nat.pow 10 e.toNat), e⟩ : Decimal) = _ ∧
    Decimal.value (if x.num * Nat.pow 10 (-e).toNat / (x.den * Nat.pow 10 e.toNat) + 1 =
      10 ^ count then ⟨1, e + count⟩
      else ⟨x.num * Nat.pow 10 (-e).toNat / (x.den * Nat.pow 10 e.toNat) + 1, e⟩) = _
  rw [hbelow]
  refine ⟨rfl, ?_⟩
  -- All nines are followed by a power of ten, which has a digit more and is written with one.
  split_ifs with h
  · rw [h, Decimal.value, zpow_add₀ (by norm_num), zpow_natCast]
    push_cast
    ring
  · rfl

/-- One of the two decimals of seventeen digits around a value reads back as it. -/
theorem readsBack_enclosing (hx : x.Canonical) (h : x.mantissa ≠ 0) :
    readsBack x (enclosing x 17).1 = true ∨ readsBack x (enclosing x 17).2 = true := by
  obtain ⟨hbelow, habove⟩ := enclosing_spec x 17
  have hv := value_pos h
  set e := floorLog10 x.num x.den + 1 - (17 : Nat) with he
  set below := ⌊x.value / 10 ^ e⌋₊ with hb
  have hstep : (0 : ℚ) < 10 ^ e := by positivity
  have hfull : 10 ^ 16 ≤ below := by
    have hnum : 0 < x.num := Nat.mul_pos (Nat.pos_of_ne_zero h) (Nat.pow_pos (by decide))
    have hlog := Int.zpow_log_le_self (b := 10) (by decide) hv
    rw [Nat.cast_ofNat, ← num_div_den, ← floorLog10_eq hnum x.den_pos, num_div_den] at hlog
    refine Nat.le_floor ?_
    rw [le_div_iff₀ hstep]
    refine le_trans (le_of_eq ?_) hlog
    rw [Nat.cast_pow, Nat.cast_ofNat, ← zpow_natCast, ← zpow_add₀ (by norm_num)]
    congr 1
    omega
  -- a decimal of seventeen digits at most half a step away is close enough
  have hclose : ∀ d : Nat, 10 ^ 16 ≤ d → |(d : ℚ) - x.value / 10 ^ e| ≤ 1 / 2 →
      ofDecimal d e = x := by
    intro d hd hnear
    have hd' : (10 : ℚ) ^ 16 ≤ d := mod_cast hd
    refine ofDecimal_eq_of_close hx (by omega) ?_
    calc |(d : ℚ) * 10 ^ e - x.value| = |((d : ℚ) - x.value / 10 ^ e) * 10 ^ e| := by
          rw [sub_mul, div_mul_cancel₀ _ hstep.ne']
      _ = |(d : ℚ) - x.value / 10 ^ e| * 10 ^ e := by rw [abs_mul, abs_of_pos hstep]
      _ ≤ 10 ^ 16 / 2 ^ 54 * 10 ^ e := by
          gcongr
          exact hnear.trans (by norm_num)
      _ ≤ d / 2 ^ 54 * 10 ^ e := by gcongr
      _ = d * 10 ^ e / 2 ^ 54 := by ring
  have hlo : (below : ℚ) ≤ x.value / 10 ^ e := Nat.floor_le (by positivity)
  have hhi : x.value / 10 ^ e < below + 1 := Nat.lt_floor_add_one _
  rcases le_total (x.value / 10 ^ e - below) (1 / 2) with hnear | hnear
  · left
    rw [readsBack, hbelow, beq_iff_eq]
    refine hclose below hfull ?_
    rw [abs_le]
    constructor <;> linarith
  · right
    rw [readsBack, beq_iff_eq, ofDecimal_congr habove]
    refine hclose (below + 1) (by omega) ?_
    rw [abs_le]
    push_cast
    constructor <;> linarith

lemma readsBack_of_ofCount? {count : Nat} {d : Decimal} (h : ofCount? x count = some d) :
    readsBack x d = true := by
  simp only [ofCount?] at h
  split at h
  · next hb ha =>
    cases h
    split_ifs
    · exact hb
    · exact ha
  · next hb _ => cases h; exact hb
  · next _ ha => cases h; exact ha
  · cases h

/-- The shortest decimal of a value above zero reads back as that value. -/
theorem ofDecimal_shortest (hx : x.Canonical) (h : x.mantissa ≠ 0) :
    ofDecimal x.shortest.digits x.shortest.exponent = x := by
  rw [shortest]
  cases hs : (List.range 17).findSome? fun n => ofCount? x (n + 1) with
  | some d =>
    obtain ⟨n, -, hn⟩ := List.exists_of_findSome?_eq_some hs
    exact beq_iff_eq.mp (readsBack_of_ofCount? hn)
  | none =>
    have hnone : ofCount? x 17 = none :=
      List.findSome?_eq_none_iff.mp hs 16 (by decide)
    exfalso
    rcases readsBack_enclosing hx h with hr | hr <;> simp only [ofCount?, hr] at hnone <;>
      split at hnone <;> simp_all

end Binary64
end WheelFarm
