import WheelFarm.Duration
import WheelFarm.Proofs.Binary64.Rounding

/-! Durations and the seconds that they are written as. -/
namespace WheelFarm.Duration
open Binary64

theorem canonical_toSeconds (d : Duration) : d.toSeconds.Canonical := canonical_add _ _

/-- Rounding adds at most one step to the seconds of a duration, however many they are. -/
theorem value_toSeconds_le {d : Duration} {j : Nat} (h : d.seconds ≤ 2 ^ 52 * 2 ^ j) :
    d.toSeconds.value ≤ (2 ^ 52 + 1) * 2 ^ j := by
  have hstep : ∀ m : Nat, value ⟨m, j⟩ = m * 2 ^ j := fun m => by rw [value, zpow_natCast]
  have hleast : minExponent ≤ (j : Int) := by
    rw [minExponent]
    omega
  have hseconds : (ofRatio d.seconds 1).value ≤ 2 ^ 52 * 2 ^ j := by
    have hle := value_ofRatio_le (y := ⟨2 ^ 52, j⟩) (a := d.seconds) Nat.one_pos
      ⟨by norm_num, hleast, .inr le_rfl⟩ (by
        rw [hstep, Nat.cast_one, div_one]
        exact mod_cast h)
    rw [hstep] at hle
    exact mod_cast hle
  have hsubsecond : (ofRatio d.subsecond 1000000000).value ≤ 1 := by
    have hone : value ⟨2 ^ 52, -52⟩ = 1 := by
      rw [value]
      norm_num
    refine (value_ofRatio_le (y := ⟨2 ^ 52, -52⟩) (by decide) (by decide) ?_).trans_eq hone
    have hlt : (d.subsecond : ℚ) ≤ 1000000000 :=
      mod_cast (Nat.mod_lt d.nanoseconds (by decide : 0 < 1000000000)).le
    rw [hone, div_le_one₀ (by norm_num)]
    exact_mod_cast hlt
  have hone : (1 : ℚ) ≤ 2 ^ j := one_le_pow₀ (by norm_num)
  have hle := value_add_le (x := ofRatio d.seconds 1) (y := ofRatio d.subsecond 1000000000)
    (z := ⟨2 ^ 52 + 1, j⟩)
    ⟨by norm_num, hleast, .inr (by norm_num)⟩ (by
      rw [hstep]
      push_cast
      linarith)
  rw [hstep] at hle
  exact mod_cast hle

theorem isFinite_toSeconds (d : Duration) : d.toSeconds.isFinite = true := by
  have hseconds : d.seconds ≤ 2 ^ 52 * 2 ^ 12 := by
    have := d.bounded
    rw [seconds]
    omega
  rw [d.canonical_toSeconds.isFinite_iff]
  refine (value_toSeconds_le hseconds).trans_lt ?_
  calc ((2 : ℚ) ^ 52 + 1) * 2 ^ 12 < 2 ^ (65 : Int) := by norm_num
    _ ≤ 2 ^ (1024 : Int) := zpow_le_zpow_right₀ (by norm_num) (by decide)

end WheelFarm.Duration
