import WheelFarm.Json.Token
import WheelFarm.Proofs.Binary64.Shortest

/-! Numbers as they are written and the values that they stand for. -/
namespace WheelFarm.Json.Numeral
open Binary64

/-- The absolute value, exactly. -/
def value (n : Numeral) : ℚ := n.digits * 10 ^ n.exponent

variable {n : Numeral}

lemma two_pow_le_ten_pow : (2 : ℚ) ^ (1075 : Int) ≤ 10 ^ (400 : Int) := by
  calc (2 : ℚ) ^ (43 * 25) = (2 ^ 43) ^ 25 := pow_mul _ _ _
    _ ≤ (10 ^ 16) ^ 25 := pow_le_pow_left₀ (by norm_num) (by norm_num) _
    _ = 10 ^ (16 * 25) := (pow_mul _ _ _).symm

lemma isFinite_of_large (hd : n.digits ≠ 0) (h : 400 < n.exponent) :
    (ofDecimal n.digits n.exponent).isFinite = false := by
  refine isFinite_ofRatio_eq_false (Nat.pow_pos (by decide)) ?_
  rw [decimal_fraction]
  have hone : (1 : ℚ) ≤ n.digits := mod_cast Nat.pos_of_ne_zero hd
  calc (2 : ℚ) ^ (1024 : Int) ≤ 2 ^ (1075 : Int) := zpow_le_zpow_right₀ (by norm_num) (by omega)
    _ ≤ 10 ^ (400 : Int) := two_pow_le_ten_pow
    _ ≤ 10 ^ n.exponent := zpow_le_zpow_right₀ (by norm_num) h.le
    _ ≤ n.digits * 10 ^ n.exponent := le_mul_of_one_le_left (by positivity) hone

lemma ofDecimal_of_small (hd : n.digits ≠ 0)
    (h : n.exponent < -(400 + Nat.log2 n.digits : Int)) :
    ofDecimal n.digits n.exponent = ⟨0, minExponent⟩ := by
  have hpos : 0 < n.digits := Nat.pos_of_ne_zero hd
  refine ofRatio_eq_zero (Nat.mul_pos hpos (Nat.pow_pos (by decide)))
    (Nat.pow_pos (by decide)) ?_
  rw [decimal_fraction]
  set k := n.digits.log2 with hk
  have hlt : (n.digits : ℚ) < 10 ^ (k + 1 : Int) := by
    have hten : n.digits < 10 ^ (k + 1) :=
      Nat.lt_log2_self.trans_le (Nat.pow_le_pow_left (by decide) _)
    exact mod_cast hten
  calc (n.digits : ℚ) * 10 ^ n.exponent < 10 ^ (k + 1 : Int) * 10 ^ n.exponent := by gcongr
    _ = 10 ^ (k + 1 + n.exponent : Int) := (zpow_add₀ (by norm_num) _ _).symm
    _ ≤ 10 ^ (-400 : Int) := zpow_le_zpow_right₀ (by norm_num) (by omega)
    _ ≤ 2 ^ (-1075 : Int) := by
        rw [zpow_neg, zpow_neg]
        exact inv_anti₀ (by positivity) two_pow_le_ten_pow

/-- A number is read as the value nearest to it, unless that is too large: the powers of ten that
are not computed make no difference. -/
theorem magnitude?_eq (n : Numeral) :
    n.magnitude? = if (ofDecimal n.digits n.exponent).isFinite
      then some (ofDecimal n.digits n.exponent) else none := by
  have hleast : (⟨0, minExponent⟩ : Binary64).isFinite = true := rfl
  rw [magnitude?]
  by_cases hzero : n.digits = 0
  · rw [if_pos hzero, hzero, ofDecimal_zero, if_pos hleast]
  rw [if_neg hzero]
  by_cases hlarge : 400 < n.exponent
  · rw [if_pos hlarge, isFinite_of_large hzero hlarge]
    rfl
  rw [if_neg hlarge]
  by_cases hsmall : n.exponent < -(400 + Nat.log2 n.digits : Int)
  · rw [if_pos hsmall, ofDecimal_of_small hzero hsmall, if_pos hleast]
  · rw [if_neg hsmall]

theorem canonical_of_magnitude? {x : Binary64} (h : n.magnitude? = some x) : x.Canonical := by
  rw [magnitude?_eq] at h
  split_ifs at h
  cases h
  exact canonical_ofDecimal

/-- A word written in digits is a number that is not too large, and that word. -/
theorem word?_digits (w : UInt64) : word? { digits := w.toNat } = some w := by
  have h := w.toNat_lt
  simp [word?, h]

lemma value_limit : Binary64.value ⟨2 ^ 52, 12⟩ = 2 ^ (64 : Int) := by
  rw [Binary64.value]
  norm_num

/-- A number below a value is read as one that is at most that value. -/
theorem exists_magnitude? {y : Binary64} (hy : y.Canonical) (hlimit : y.value ≤ 2 ^ (64 : Int))
    (h : n.value ≤ y.value) : ∃ x, n.magnitude? = some x ∧ x.value ≤ y.value := by
  have hle : (ofDecimal n.digits n.exponent).value ≤ y.value :=
    value_ofRatio_le (Nat.pow_pos (by decide)) hy ((decimal_fraction _ _).trans_le h)
  have hfinite : (ofDecimal n.digits n.exponent).isFinite = true :=
    canonical_ofDecimal.isFinite_iff.mpr
      ((hle.trans hlimit).trans_lt (zpow_lt_zpow_right₀ (by norm_num) (by decide)))
  exact ⟨_, by rw [magnitude?_eq, if_pos hfinite], hle⟩

theorem isSome_magnitude?_digits (w : UInt64) :
    (magnitude? { digits := w.toNat }).isSome = true := by
  obtain ⟨x, hx, -⟩ := exists_magnitude? (n := { digits := w.toNat }) (y := ⟨2 ^ 52, 12⟩) (by decide)
    value_limit.le (by
      have hexponent : exponent { digits := w.toNat } = 0 := rfl
      rw [value_limit, value, hexponent, zpow_zero, mul_one]
      exact mod_cast w.toNat_lt.le)
  rw [hx]
  rfl

end WheelFarm.Json.Numeral
