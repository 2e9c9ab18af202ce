import Mathlib.Algebra.Order.Field.Power
import Mathlib.Data.Int.Log
import Mathlib.Data.Rat.Floor
import Mathlib.Tactic.FieldSimp
import Mathlib.Tactic.Lemma
import Mathlib.Tactic.Linarith
import Mathlib.Tactic.NormNum
import Mathlib.Tactic.Positivity
import Mathlib.Tactic.Ring
import Mathlib.Tactic.SplitIfs
import WheelFarm.Binary64

/-! Rounding to binary values, told in exact fractions. A rounded value lies within half a step of
the fraction and never beyond a value on either side of it, and it depends on the fraction alone,
not on how that is written. -/
namespace WheelFarm

section RoundDiv
variable {a b c d k : Nat}

/-- The rounded quotient is at most one half away from the exact one. -/
theorem abs_roundDiv_sub_le (hb : 0 < b) : |(roundDiv a b : ℚ) - a / b| ≤ 1 / 2 := by
  have hb' : (0 : ℚ) < b := Nat.cast_pos.mpr hb
  have hle : 2 * a ≤ (2 * roundDiv a b + 1) * b ∧ 2 * roundDiv a b * b ≤ 2 * a + b := by
    have hm := Nat.div_add_mod a b
    have hlt := Nat.mod_lt a hb
    simp only [roundDiv]
    generalize a / b = whole at hm ⊢
    generalize a % b = rest at hm hlt ⊢
    split_ifs <;> constructor <;> nlinarith
  have hle' : 2 * (a : ℚ) ≤ (2 * roundDiv a b + 1) * b ∧ 2 * (roundDiv a b : ℚ) * b ≤ 2 * a + b :=
    mod_cast hle
  rw [abs_le]
  constructor
  · rw [neg_le_sub_iff_le_add, div_le_iff₀ hb']
    linarith
  · rw [sub_le_iff_le_add, ← sub_le_iff_le_add', le_div_iff₀ hb']
    linarith

theorem roundDiv_le (hb : 0 < b) (h : (a : ℚ) / b ≤ k) : roundDiv a b ≤ k := by
  have he := (abs_le.mp (abs_roundDiv_sub_le (a := a) hb)).2
  have : (roundDiv a b : ℚ) < k + 1 := by linarith
  exact Nat.lt_succ_iff.mp (mod_cast this)

theorem le_roundDiv (hb : 0 < b) (h : (k : ℚ) ≤ a / b) : k ≤ roundDiv a b := by
  have he := (abs_le.mp (abs_roundDiv_sub_le (a := a) hb)).1
  have : (k : ℚ) < roundDiv a b + 1 := by linarith
  exact Nat.lt_succ_iff.mp (mod_cast this)

/-- A quotient less than one half away from a whole number is rounded to it. -/
theorem roundDiv_eq_of_near (hb : 0 < b) (h : |(a : ℚ) / b - k| < 1 / 2) : roundDiv a b = k := by
  have hround := abs_roundDiv_sub_le (a := a) hb
  have hlt : |((roundDiv a b : Int) : ℚ) - (k : Int)| < 1 :=
    (abs_sub_le _ ((a : ℚ) / b) _).trans_lt (by push_cast; linarith)
  have hone : |(roundDiv a b : Int) - k| < 1 := mod_cast hlt
  rw [Int.abs_lt_one_iff] at hone
  omega

theorem roundDiv_mul_left (hk : 0 < k) : roundDiv (k * a) (k * b) = roundDiv a b := by
  have hl : 2 * (k * (a % b)) < k * b ↔ 2 * (a % b) < b := by
    rw [Nat.mul_left_comm]
    exact Nat.mul_lt_mul_left hk
  have hg : k * b < 2 * (k * (a % b)) ↔ b < 2 * (a % b) := by
    rw [Nat.mul_left_comm]
    exact Nat.mul_lt_mul_left hk
  simp only [roundDiv, Nat.mul_div_mul_left _ _ hk, Nat.mul_mod_mul_left, hl, hg]

/-- Equal fractions round alike. -/
theorem roundDiv_congr (hb : 0 < b) (hd : 0 < d) (h : (a : ℚ) / b = c / d) :
    roundDiv a b = roundDiv c d := by
  have hcross : a * d = c * b := by
    rw [div_eq_div_iff (by positivity) (by positivity)] at h
    exact mod_cast h
  calc roundDiv a b = roundDiv (d * a) (d * b) := (roundDiv_mul_left hd).symm
    _ = roundDiv (b * c) (b * d) := by rw [Nat.mul_comm d a, hcross, Nat.mul_comm c, Nat.mul_comm d]
    _ = roundDiv c d := roundDiv_mul_left hb

end RoundDiv

namespace Binary64
variable {a b c d : Nat} {x y : Binary64}

/-- A power moved to the side of a fraction where its exponent is not negative divides it. -/
theorem scaled_div (base : Nat) (hbase : 0 < base) (a b : Nat) (e : Int) :
    ((a * Nat.pow base (-e).toNat : Nat) : ℚ) / (b * Nat.pow base e.toNat : Nat) =
      a / b / (base : ℚ) ^ e := by
  have hb : (base : ℚ) ≠ 0 := by positivity
  obtain ⟨n, rfl | rfl⟩ := e.eq_nat_or_neg
  · simp [div_div]
  · simp only [neg_neg, Int.toNat_natCast, Nat.pow_eq, Int.toNat_neg_natCast, pow_zero, mul_one,
      zpow_neg, zpow_natCast, div_inv_eq_mul]
    push_cast
    ring

lemma scaled_div_two (a b : Nat) (e : Int) :
    ((a * Nat.pow 2 (-e).toNat : Nat) : ℚ) / (b * Nat.pow 2 e.toNat : Nat) = a / b / 2 ^ e := by
  rw [scaled_div 2 (by decide), Nat.cast_ofNat]

/-- The logarithm to a base is told by the powers on both sides. -/
theorem log_eq {base : Nat} (hbase : 1 < base) {r : ℚ} {e : Int} (hle : (base : ℚ) ^ e ≤ r)
    (hlt : r < (base : ℚ) ^ (e + 1)) : Int.log base r = e := by
  have hr : 0 < r := lt_of_lt_of_le (zpow_pos (by positivity) e) hle
  have h₁ := (Int.zpow_le_iff_le_log hbase hr).mp hle
  have h₂ := (Int.lt_zpow_iff_log_lt hbase hr).mp hlt
  omega

theorem floorLog2_eq (ha : 0 < a) (hb : 0 < b) : floorLog2 a b = Int.log 2 ((a : ℚ) / b) := by
  have ha' : (0 : ℚ) < a := Nat.cast_pos.mpr ha
  have hb' : (0 : ℚ) < b := Nat.cast_pos.mpr hb
  have ha₁ : (2 : ℚ) ^ (a.log2 : Int) ≤ a := mod_cast Nat.log2_self_le ha.ne'
  have ha₂ : (a : ℚ) < 2 ^ (a.log2 + 1 : Int) := mod_cast Nat.lt_log2_self
  have hb₁ : (2 : ℚ) ^ (b.log2 : Int) ≤ b := mod_cast Nat.log2_self_le hb.ne'
  have hb₂ : (b : ℚ) < 2 ^ (b.log2 + 1 : Int) := mod_cast Nat.lt_log2_self
  set e : Int := (a.log2 : Int) - b.log2 with he
  have hlo : (2 : ℚ) ^ (e - 1) ≤ a / b := by
    rw [le_div_iff₀ hb']
    calc (2 : ℚ) ^ (e - 1) * b ≤ 2 ^ (e - 1) * 2 ^ (b.log2 + 1 : Int) := by gcongr
      _ = 2 ^ (a.log2 : Int) := by rw [← zpow_add₀ two_ne_zero]; congr 1; omega
      _ ≤ a := ha₁
  have hhi : (a : ℚ) / b < 2 ^ (e + 1) := by
    rw [div_lt_iff₀ hb']
    calc (a : ℚ) < 2 ^ (a.log2 + 1 : Int) := ha₂
      _ = 2 ^ (e + 1) * 2 ^ (b.log2 : Int) := by rw [← zpow_add₀ two_ne_zero]; congr 1; omega
      _ ≤ 2 ^ (e + 1) * b := by gcongr
  -- the test compares the fraction with the power between the two bounds
  have htest : b * Nat.pow 2 e.toNat ≤ a * Nat.pow 2 (-e).toNat ↔ (2 : ℚ) ^ e ≤ a / b := by
    have hpos : (0 : ℚ) < (b * Nat.pow 2 e.toNat : Nat) :=
      Nat.cast_pos.mpr (Nat.mul_pos hb (Nat.pow_pos (by decide)))
    rw [← one_le_div₀ (zpow_pos (by norm_num) e), ← scaled_div_two, one_le_div₀ hpos, Nat.cast_le]
  simp only [floorLog2, ← he, htest]
  split_ifs with h
  · exact (log_eq (by decide) h hhi).symm
  · exact (log_eq (by decide) hlo (by simpa using h)).symm

/-- The exact value. -/
def value (x : Binary64) : ℚ := x.mantissa * 2 ^ x.exponent

theorem den_pos (x : Binary64) : 0 < x.den := Nat.pow_pos (by decide)

theorem num_div_den (x : Binary64) : (x.num : ℚ) / x.den = x.value := by
  have h := scaled_div_two x.mantissa 1 (-x.exponent)
  simp only [neg_neg, one_mul, Nat.cast_one, div_one, zpow_neg, div_inv_eq_mul] at h
  exact h

theorem value_pos (h : x.mantissa ≠ 0) : 0 < x.value := by
  have : 0 < x.mantissa := Nat.pos_of_ne_zero h
  rw [value]
  positivity

/-- The one way to write a value: with a full mantissa, or with the least exponent. -/
structure Canonical (x : Binary64) : Prop where
  lt : x.mantissa < 2 ^ 53
  least : minExponent ≤ x.exponent
  full : x.exponent = minExponent ∨ 2 ^ 52 ≤ x.mantissa

instance (x : Binary64) : Decidable x.Canonical :=
  decidable_of_iff (x.mantissa < 2 ^ 53 ∧ minExponent ≤ x.exponent ∧
    (x.exponent = minExponent ∨ 2 ^ 52 ≤ x.mantissa))
    ⟨fun ⟨h, g, f⟩ => ⟨h, g, f⟩, fun h => ⟨h.lt, h.least, h.full⟩⟩

namespace Canonical

theorem value_lt (h : x.Canonical) : x.value < 2 ^ (x.exponent + 53) := by
  have hm : (x.mantissa : ℚ) < 2 ^ (53 : Int) := mod_cast h.lt
  rw [value, add_comm, zpow_add₀ two_ne_zero]
  gcongr

/-- Between two canonical values of different exponents the one with the greater exponent is
greater. -/
theorem value_lt_of_exponent_lt (hx : x.Canonical) (hy : y.Canonical)
    (h : x.exponent < y.exponent) : x.value < y.value := by
  have hfull : 2 ^ 52 ≤ y.mantissa := hy.full.resolve_left (by have := hx.least; omega)
  have hm : (2 : ℚ) ^ (52 : Int) ≤ y.mantissa := mod_cast hfull
  calc x.value < 2 ^ (x.exponent + 53) := hx.value_lt
    _ ≤ 2 ^ (52 + y.exponent) := zpow_le_zpow_right₀ (by norm_num) (by omega)
    _ = 2 ^ (52 : Int) * 2 ^ y.exponent := zpow_add₀ two_ne_zero _ _
    _ ≤ y.value := by rw [value]; gcongr

theorem eq_of_value_eq (hx : x.Canonical) (hy : y.Canonical) (h : x.value = y.value) : x = y := by
  have he : x.exponent = y.exponent := by
    rcases lt_trichotomy x.exponent y.exponent with hlt | he | hlt
    · exact absurd h (hx.value_lt_of_exponent_lt hy hlt).ne
    · exact he
    · exact absurd h (hy.value_lt_of_exponent_lt hx hlt).ne'
  have hm : (x.mantissa : ℚ) = y.mantissa := by
    rw [value, value, he] at h
    exact mul_right_cancel₀ (zpow_ne_zero _ two_ne_zero) h
  cases x; cases y
  simp_all

/-- The values that do not overflow are those below 2^1024. -/
theorem isFinite_iff (hx : x.Canonical) : x.isFinite = true ↔ x.value < 2 ^ (1024 : Int) := by
  rw [isFinite, decide_eq_true_eq]
  constructor
  · intro hle
    refine hx.value_lt.trans_le (zpow_le_zpow_right₀ (by norm_num) ?_)
    rw [maxExponent] at hle
    omega
  · intro h
    by_contra hn
    have hfull : 2 ^ 52 ≤ x.mantissa := hx.full.resolve_left fun he => hn (he ▸ by decide)
    have hm : (2 : ℚ) ^ (52 : Int) ≤ x.mantissa := mod_cast hfull
    have hle : (2 : ℚ) ^ (1024 : Int) ≤ x.value := by
      calc (2 : ℚ) ^ (1024 : Int) ≤ 2 ^ (52 + x.exponent) :=
            zpow_le_zpow_right₀ (by norm_num) (by rw [maxExponent] at hn; omega)
        _ = 2 ^ (52 : Int) * 2 ^ x.exponent := zpow_add₀ two_ne_zero _ _
        _ ≤ x.value := by rw [value]; gcongr
    exact absurd h (not_lt.mpr hle)

end Canonical

/-- The exponent of the values around a fraction. -/
def grid (r : ℚ) : Int := max minExponent (Int.log 2 r - 52)

theorem lt_zpow_grid (r : ℚ) : r < 2 ^ (grid r + 53) := by
  have h := Int.lt_zpow_succ_log_self (b := 2) (by decide) r
  rw [Nat.cast_ofNat] at h
  exact h.trans_le (zpow_le_zpow_right₀ (by norm_num) (by rw [grid]; omega))

/-- A fraction whose values have more than the least exponent fills a whole mantissa. -/
theorem zpow_grid_le {r : ℚ} (hr : 0 < r) (h : minExponent < grid r) : 2 ^ (grid r + 52) ≤ r := by
  have hlog := Int.zpow_log_le_self (b := 2) (by decide) hr
  rw [Nat.cast_ofNat] at hlog
  exact (zpow_le_zpow_right₀ (by norm_num) (by rw [grid] at h ⊢; omega)).trans hlog

/-- Below a full mantissa of steps the step is no greater. -/
theorem grid_le {r : ℚ} {e : Int} (he : minExponent ≤ e) (hr : 0 < r) (h : r < 2 ^ (e + 53)) :
    grid r ≤ e := by
  have hlog := (Int.lt_zpow_iff_log_lt (b := 2) (by decide) hr).mp (by simpa using h)
  unfold grid
  omega

/-- From a full mantissa of steps on the step is no smaller. -/
theorem le_grid {r : ℚ} {e : Int} (h : 2 ^ (e + 52) ≤ r) : e ≤ grid r := by
  have hr : 0 < r := (zpow_pos (by norm_num) _).trans_le h
  have hlog := (Int.zpow_le_iff_le_log (b := 2) (by decide) hr).mp (by simpa using h)
  unfold grid
  omega

lemma exists_multiple_natCast {n : Nat} (hn : 0 < n) (h : n < 2 ^ 53) :
    ∃ k : Nat, (n : ℚ) = k * 2 ^ grid (n : ℚ) := by
  have hgrid : grid (n : ℚ) ≤ 0 :=
    grid_le (by decide) (Nat.cast_pos.mpr hn) (by rw [zero_add]; exact mod_cast h)
  obtain ⟨j, hj⟩ : ∃ j : Nat, grid (n : ℚ) = -j := ⟨(-grid (n : ℚ)).toNat, by omega⟩
  refine ⟨n * 2 ^ j, ?_⟩
  rw [hj, zpow_neg, zpow_natCast]
  push_cast
  field_simp

section OfRatio

/-- The mantissa that a fraction is rounded to, 2^53 included. -/
def rounded (a b : Nat) : Nat :=
  let e := grid ((a : ℚ) / b)
  roundDiv (a * Nat.pow 2 (-e).toNat) (b * Nat.pow 2 e.toNat)

theorem ofRatio_eq (ha : 0 < a) (hb : 0 < b) :
    ofRatio a b = if rounded a b = 2 ^ 53 then ⟨2 ^ 52, grid (a / b) + 1⟩
      else ⟨rounded a b, grid (a / b)⟩ := by
  rw [ofRatio, if_neg ha.ne', floorLog2_eq ha hb]
  rfl

theorem value_ofRatio (ha : 0 < a) (hb : 0 < b) :
    (ofRatio a b).value = rounded a b * 2 ^ grid (a / b) := by
  rw [ofRatio_eq ha hb]
  split_ifs with h
  · rw [h, value, zpow_add_one₀ two_ne_zero]
    push_cast
    ring
  · rfl

/-- The mantissa is the fraction in units of its step, rounded. -/
theorem abs_rounded_sub_le (hb : 0 < b) :
    |(rounded a b : ℚ) - a / b / 2 ^ grid (a / b)| ≤ 1 / 2 := by
  rw [← scaled_div_two]
  exact abs_roundDiv_sub_le (Nat.mul_pos hb (Nat.pow_pos (by decide)))

/-- A rounded value is at most half a step away from the fraction. -/
theorem abs_value_ofRatio_sub_le (ha : 0 < a) (hb : 0 < b) :
    |(ofRatio a b).value - a / b| ≤ 2 ^ grid (a / b) / 2 := by
  have hstep : (0 : ℚ) < 2 ^ grid ((a : ℚ) / b) := by positivity
  calc |(ofRatio a b).value - a / b|
      = |((rounded a b : ℚ) - a / b / 2 ^ grid (a / b)) * 2 ^ grid (a / b)| := by
        rw [value_ofRatio ha hb, sub_mul, div_mul_cancel₀ _ hstep.ne']
    _ = |(rounded a b : ℚ) - a / b / 2 ^ grid (a / b)| * 2 ^ grid (a / b) := by
        rw [abs_mul, abs_of_pos hstep]
    _ ≤ 1 / 2 * 2 ^ grid (a / b) := by
        gcongr
        exact abs_rounded_sub_le hb
    _ = 2 ^ grid (a / b) / 2 := by ring

lemma rounded_le {k : Nat} (hb : 0 < b) (h : (a : ℚ) / b ≤ k * 2 ^ grid (a / b)) :
    rounded a b ≤ k := by
  refine roundDiv_le (Nat.mul_pos hb (Nat.pow_pos (by decide))) ?_
  rw [scaled_div_two, div_le_iff₀ (by positivity)]
  exact h

lemma le_rounded {k : Nat} (hb : 0 < b) (h : k * 2 ^ grid (a / b) ≤ (a : ℚ) / b) :
    k ≤ rounded a b := by
  refine le_roundDiv (Nat.mul_pos hb (Nat.pow_pos (by decide))) ?_
  rw [scaled_div_two, le_div_iff₀ (by positivity)]
  exact h

/-- A multiple of the step keeps its value. -/
theorem value_ofRatio_of_multiple {k : Nat} (ha : 0 < a) (hb : 0 < b)
    (h : (a : ℚ) / b = k * 2 ^ grid (a / b)) : (ofRatio a b).value = a / b := by
  have hk : rounded a b = k := le_antisymm (rounded_le hb h.le) (le_rounded hb h.ge)
  rw [value_ofRatio ha hb, hk, ← h]

/-- Whole numbers of up to 53 bits keep their value. -/
theorem value_ofRatio_natCast {n : Nat} (h : n < 2 ^ 53) : (ofRatio n 1).value = n := by
  rcases Nat.eq_zero_or_pos n with rfl | hn
  · simp [ofRatio, value]
  · obtain ⟨k, hk⟩ := exists_multiple_natCast hn h
    have hone : (n : ℚ) / (1 : Nat) = n := by simp
    rw [value_ofRatio_of_multiple hn Nat.one_pos (k := k) (by rw [hone]; exact hk), hone]

lemma rounded_le_full (hb : 0 < b) : rounded a b ≤ 2 ^ 53 := by
  refine rounded_le hb ((lt_zpow_grid _).le.trans_eq ?_)
  rw [zpow_add₀ two_ne_zero, mul_comm]
  norm_num

lemma full_le_rounded (ha : 0 < a) (hb : 0 < b) (h : minExponent < grid (a / b)) :
    2 ^ 52 ≤ rounded a b := by
  refine le_rounded hb (Eq.trans_le ?_ (zpow_grid_le (by positivity) h))
  rw [zpow_add₀ two_ne_zero, mul_comm]
  norm_num

theorem canonical_ofRatio (hb : 0 < b) : (ofRatio a b).Canonical := by
  rcases Nat.eq_zero_or_pos a with rfl | ha
  · exact (by decide : Canonical ⟨0, minExponent⟩)
  have hgrid : minExponent ≤ grid ((a : ℚ) / b) := le_max_left _ _
  rw [ofRatio_eq ha hb]
  split_ifs with h
  · exact ⟨by norm_num, hgrid.trans (Int.le_add_one le_rfl), .inr le_rfl⟩
  · refine ⟨lt_of_le_of_ne (rounded_le_full hb) h, hgrid, ?_⟩
    exact hgrid.eq_or_lt.imp Eq.symm (full_le_rounded ha hb)

theorem value_nonneg (x : Binary64) : 0 ≤ x.value := by
  rw [value]
  positivity

lemma exists_multiple {e : Int} (h : e ≤ x.exponent) : ∃ k : Nat, x.value = k * 2 ^ e := by
  refine ⟨x.mantissa * 2 ^ (x.exponent - e).toNat, ?_⟩
  have he : x.exponent = ((x.exponent - e).toNat : Int) + e := by omega
  rw [value]
  nth_rewrite 1 [he]
  rw [zpow_add₀ two_ne_zero, zpow_natCast]
  push_cast
  ring

/-- A value that is not below a fraction is not below what that is rounded to. -/
theorem value_ofRatio_le (hb : 0 < b) (hy : y.Canonical) (h : (a : ℚ) / b ≤ y.value) :
    (ofRatio a b).value ≤ y.value := by
  rcases Nat.eq_zero_or_pos a with rfl | ha
  · have hzero : (ofRatio 0 b).value = 0 := by simp [ofRatio, value]
    exact hzero ▸ y.value_nonneg
  have hge : grid ((a : ℚ) / b) ≤ y.exponent := by
    by_contra hn
    have hfull := zpow_grid_le (r := (a : ℚ) / b) (by positivity) (by have := hy.least; omega)
    have hlt : (2 : ℚ) ^ (grid ((a : ℚ) / b) + 52) < 2 ^ (y.exponent + 53) :=
      hfull.trans_lt (h.trans_lt hy.value_lt)
    have := (zpow_lt_zpow_iff_right₀ (by norm_num)).mp hlt
    omega
  obtain ⟨k, hk⟩ := exists_multiple hge
  rw [hk] at h ⊢
  rw [value_ofRatio ha hb]
  gcongr
  exact rounded_le hb h

/-- A value that is not above a fraction is not above what that is rounded to. -/
theorem le_value_ofRatio (hb : 0 < b) (hy : y.Canonical) (h : y.value ≤ (a : ℚ) / b) :
    y.value ≤ (ofRatio a b).value := by
  rcases Nat.eq_zero_or_pos a with rfl | ha
  · rw [Nat.cast_zero, zero_div] at h
    exact h.trans (value_nonneg _)
  rw [value_ofRatio ha hb]
  rcases le_or_gt (grid ((a : ℚ) / b)) y.exponent with hge | hlt
  · obtain ⟨k, hk⟩ := exists_multiple hge
    rw [hk] at h ⊢
    gcongr
    exact le_rounded hb h
  · have hfull := full_le_rounded ha hb (hy.least.trans_lt hlt)
    have hm : (2 : ℚ) ^ (52 : Int) ≤ rounded a b := mod_cast hfull
    calc y.value ≤ 2 ^ (y.exponent + 53) := hy.value_lt.le
      _ ≤ 2 ^ (52 + grid ((a : ℚ) / b)) := zpow_le_zpow_right₀ (by norm_num) (by omega)
      _ = 2 ^ (52 : Int) * 2 ^ grid ((a : ℚ) / b) := zpow_add₀ two_ne_zero _ _
      _ ≤ rounded a b * 2 ^ grid ((a : ℚ) / b) := by gcongr

/-- A fraction that is a value is rounded to it. -/
theorem ofRatio_eq_of_value_eq (hb : 0 < b) (hx : x.Canonical) (h : (a : ℚ) / b = x.value) :
    ofRatio a b = x :=
  (canonical_ofRatio hb).eq_of_value_eq hx
    (le_antisymm (value_ofRatio_le hb hx h.le) (le_value_ofRatio hb hx h.ge))

/-- Rounding a fraction below a full mantissa of steps moves it by half a step at most. -/
theorem abs_value_ofRatio_sub_le_of_lt {e : Int} (he : minExponent ≤ e) (hb : 0 < b)
    (h : (a : ℚ) / b < 2 ^ (e + 53)) : |(ofRatio a b).value - a / b| ≤ 2 ^ e / 2 := by
  rcases Nat.eq_zero_or_pos a with rfl | ha
  · have hzero : (ofRatio 0 b).value = 0 := by simp [ofRatio, value]
    rw [hzero, Nat.cast_zero, zero_div, sub_zero, abs_zero]
    positivity
  · refine (abs_value_ofRatio_sub_le ha hb).trans ?_
    have hgrid := grid_le he (r := (a : ℚ) / b) (by positivity) h
    gcongr
    · norm_num

/-- A fraction less than half a step away from a value is rounded to it. -/
theorem ofRatio_eq_of_near (ha : 0 < a) (hb : 0 < b) (hx : x.Canonical)
    (hg : grid (a / b) ≤ x.exponent) (h : |(a : ℚ) / b - x.value| < 2 ^ grid (a / b) / 2) :
    ofRatio a b = x := by
  refine (canonical_ofRatio hb).eq_of_value_eq hx ?_
  have hround := abs_value_ofRatio_sub_le ha hb
  obtain ⟨k, hk⟩ := exists_multiple hg
  rw [hk] at h ⊢
  rw [value_ofRatio ha hb] at hround ⊢
  have hstep : (0 : ℚ) < 2 ^ grid ((a : ℚ) / b) := by positivity
  have hlt : |((rounded a b : ℚ) - k) * 2 ^ grid ((a : ℚ) / b)| < 2 ^ grid ((a : ℚ) / b) := by
    rw [sub_mul]
    exact (abs_sub_le _ ((a : ℚ) / b) _).trans_lt (by linarith)
  rw [abs_mul, abs_of_pos hstep, mul_lt_iff_lt_one_left hstep] at hlt
  have hone : |(rounded a b : Int) - k| < 1 := mod_cast hlt
  have heq : rounded a b = k := by
    rw [Int.abs_lt_one_iff] at hone
    omega
  rw [heq]

/-- A fraction within one part in 2^54 of a value is rounded to it. -/
theorem ofRatio_eq_of_close (ha : 0 < a) (hb : 0 < b) (hx : x.Canonical)
    (h : |(a : ℚ) / b - x.value| ≤ a / b / 2 ^ 54) : ofRatio a b = x := by
  have hr : (0 : ℚ) < a / b := by positivity
  have hlt : (a : ℚ) / b < 2 ^ (x.exponent + 53) := by
    have hm : (x.mantissa : ℚ) + 1 ≤ 2 ^ 53 := mod_cast hx.lt
    have hstep : (0 : ℚ) < 2 ^ x.exponent := by positivity
    have hv : x.value ≤ (2 ^ 53 - 1) * 2 ^ x.exponent := by
      rw [value]
      gcongr
      linarith
    have hle := (abs_le.mp h).2
    rw [zpow_add₀ two_ne_zero]
    norm_num at hle hv ⊢
    linarith
  have hg : grid ((a : ℚ) / b) ≤ x.exponent := grid_le hx.least hr hlt
  refine ofRatio_eq_of_near ha hb hx hg (h.trans_lt ?_)
  have hgrid := lt_zpow_grid ((a : ℚ) / b)
  rw [zpow_add₀ two_ne_zero] at hgrid
  norm_num at hgrid ⊢
  linarith

/-- A fraction of 2^1024 or more overflows. -/
theorem isFinite_ofRatio_eq_false (hb : 0 < b) (h : 2 ^ (1024 : Int) ≤ (a : ℚ) / b) :
    (ofRatio a b).isFinite = false := by
  have hlimit : value ⟨2 ^ 52, 972⟩ = 2 ^ (1024 : Int) := by
    rw [value, show (1024 : Int) = (52 : Nat) + 972 from rfl, zpow_add₀ two_ne_zero, zpow_natCast]
    norm_num
  have hle := le_value_ofRatio hb (y := ⟨2 ^ 52, 972⟩) (by decide) (hlimit ▸ h)
  rw [← Bool.not_eq_true, (canonical_ofRatio hb).isFinite_iff, not_lt]
  exact hlimit ▸ hle

/-- A fraction below half the least value is rounded to zero. -/
theorem ofRatio_eq_zero (ha : 0 < a) (hb : 0 < b) (h : (a : ℚ) / b < 2 ^ (-1075 : Int)) :
    ofRatio a b = ⟨0, minExponent⟩ := by
  have hr : (0 : ℚ) < a / b := by positivity
  have hlog := (Int.lt_zpow_iff_log_lt (b := 2) (x := -1075) (by decide) hr).mp h
  have hg : grid ((a : ℚ) / b) = minExponent := by
    rw [grid, minExponent]
    omega
  refine ofRatio_eq_of_near ha hb (by decide) hg.le ?_
  rw [hg, value, Nat.cast_zero, zero_mul, sub_zero, abs_of_pos hr, minExponent]
  refine h.trans_eq ?_
  rw [show (-1074 : Int) = -1075 + 1 from rfl, zpow_add_one₀ two_ne_zero]
  ring

/-- Equal fractions are rounded alike. -/
theorem ofRatio_congr (hb : 0 < b) (hd : 0 < d) (h : (a : ℚ) / b = c / d) :
    ofRatio a b = ofRatio c d := by
  have hb' : (b : ℚ) ≠ 0 := by positivity
  have hd' : (d : ℚ) ≠ 0 := by positivity
  rcases Nat.eq_zero_or_pos a with rfl | ha
  · have hc : c = 0 := by
      rw [Nat.cast_zero, zero_div, eq_comm, div_eq_zero_iff] at h
      exact mod_cast h.resolve_right hd'
    rw [hc, ofRatio, ofRatio, if_pos rfl, if_pos rfl]
  · have hc : 0 < c := by
      have hpos : (0 : ℚ) < c / d := h ▸ by positivity
      exact Nat.pos_of_ne_zero fun hc => by simp [hc] at hpos
    have hrounded : rounded a b = rounded c d := by
      rw [rounded, rounded, ← h]
      refine roundDiv_congr (Nat.mul_pos hb (Nat.pow_pos (by decide)))
        (Nat.mul_pos hd (Nat.pow_pos (by decide))) ?_
      rw [scaled_div_two, scaled_div_two, h]
    rw [ofRatio_eq ha hb, ofRatio_eq hc hd, hrounded, h]

end OfRatio

section Sums
variable {z : Binary64}

/-- A sum is rounded from its exact value. -/
theorem sum_fraction (x y : Binary64) :
    ((x.num * y.den + y.num * x.den : Nat) : ℚ) / (x.den * y.den : Nat) = x.value + y.value := by
  have hx : (x.den : ℚ) ≠ 0 := Nat.cast_ne_zero.mpr x.den_pos.ne'
  have hy : (y.den : ℚ) ≠ 0 := Nat.cast_ne_zero.mpr y.den_pos.ne'
  rw [← num_div_den, ← num_div_den]
  push_cast
  field_simp

theorem canonical_add (x y : Binary64) : (x.add y).Canonical :=
  canonical_ofRatio (Nat.mul_pos x.den_pos y.den_pos)

theorem value_add_le (hz : z.Canonical) (h : x.value + y.value ≤ z.value) :
    (x.add y).value ≤ z.value :=
  value_ofRatio_le (Nat.mul_pos x.den_pos y.den_pos) hz ((sum_fraction x y).trans_le h)

/-- Rounding a sum below a full mantissa of steps moves it by half a step at most. -/
theorem abs_value_add_sub_le {e : Int} (he : minExponent ≤ e)
    (h : x.value + y.value < 2 ^ (e + 53)) :
    |(x.add y).value - (x.value + y.value)| ≤ 2 ^ e / 2 := by
  rw [← sum_fraction] at h ⊢
  exact abs_value_ofRatio_sub_le_of_lt he (Nat.mul_pos x.den_pos y.den_pos) h

/-- A sum less than half a step away from a value is rounded to it. -/
theorem add_eq_of_near (hz : z.Canonical) (hlo : 2 ^ (z.exponent + 52) ≤ x.value + y.value)
    (hhi : x.value + y.value < 2 ^ (z.exponent + 53))
    (h : |x.value + y.value - z.value| < 2 ^ z.exponent / 2) : x.add y = z := by
  have hpos : 0 < x.value + y.value := (zpow_pos (by norm_num) _).trans_le hlo
  have hgrid : grid (x.value + y.value) = z.exponent :=
    le_antisymm (grid_le hz.least hpos hhi) (le_grid hlo)
  have hden : 0 < x.den * y.den := Nat.mul_pos x.den_pos y.den_pos
  have hnum : 0 < x.num * y.den + y.num * x.den := by
    rw [← sum_fraction] at hpos
    by_contra hn
    rw [Nat.eq_zero_of_not_pos hn, Nat.cast_zero, zero_div] at hpos
    exact hpos.false
  apply ofRatio_eq_of_near hnum hden hz
  · rw [sum_fraction, hgrid]
  · rwa [sum_fraction, hgrid]

/-- A sum that is a value is that value. -/
theorem add_eq_of_value_eq (hz : z.Canonical) (h : x.value + y.value = z.value) : x.add y = z :=
  ofRatio_eq_of_value_eq (Nat.mul_pos x.den_pos y.den_pos) hz ((sum_fraction x y).trans h)

end Sums

end Binary64
end WheelFarm
