import WheelFarm.Proofs.Duration

/-! Durations that are written as seconds and read again. Below 2^23 seconds the two roundings on
the way out move a duration by less than half a nanosecond, so that it is read back as it was. Of
2^23 seconds and more what is read from a value is written as that very value, since nanoseconds are
finer there than the values themselves. -/
namespace WheelFarm.Duration
open Binary64

/-- The exact number of seconds. -/
def inSeconds (d : Duration) : ℚ := d.nanoseconds / 1000000000

variable {d : Duration} {x : Binary64} {a b : Nat}

theorem inSeconds_eq (d : Duration) : d.inSeconds = d.seconds + d.subsecond / 1000000000 := by
  have h : d.nanoseconds = d.seconds * 1000000000 + d.subsecond := by
    unfold seconds subsecond
    omega
  unfold inSeconds
  rw [h]
  push_cast
  field_simp

theorem ofSeconds?_eq_some_iff :
    ofSeconds? x = some d ↔ roundDiv (x.num * 1000000000) x.den = d.nanoseconds := by
  have hbounded := d.bounded
  unfold ofSeconds?
  dsimp only
  constructor
  · intro h
    split_ifs at h
    cases h
    rfl
  · intro h
    simp only [h, hbounded, dif_pos]

lemma nanosecond_fraction (x : Binary64) :
    ((x.num * 1000000000 : Nat) : ℚ) / x.den = x.value * 1000000000 := by
  rw [Nat.cast_mul, mul_div_right_comm, num_div_den, Nat.cast_ofNat]

/-- A value less than half a nanosecond away from a duration is read as it. -/
theorem ofSeconds?_of_near (h : |x.value - d.inSeconds| < 1 / 2000000000) :
    ofSeconds? x = some d := by
  apply ofSeconds?_eq_some_iff.mpr
  apply roundDiv_eq_of_near x.den_pos
  have hscale : x.value * 1000000000 - d.nanoseconds = (x.value - d.inSeconds) * 1000000000 := by
    unfold inSeconds
    field_simp
  rw [nanosecond_fraction, hscale, abs_mul, abs_of_pos (by norm_num : (0 : ℚ) < 1000000000)]
  linarith

/-- What is read is at most half a nanosecond away from the value. -/
theorem abs_inSeconds_sub_le (h : ofSeconds? x = some d) :
    |d.inSeconds - x.value| ≤ 1 / 2000000000 := by
  have hround := abs_roundDiv_sub_le (a := x.num * 1000000000) x.den_pos
  have hscale : d.inSeconds - x.value = (d.nanoseconds - x.value * 1000000000) / 1000000000 := by
    unfold inSeconds
    field_simp
  rw [ofSeconds?_eq_some_iff.mp h, nanosecond_fraction] at hround
  rw [hscale, abs_div, abs_of_pos (by norm_num : (0 : ℚ) < 1000000000), div_le_iff₀ (by positivity)]
  linarith

/-- A fraction of less than 2^23 seconds is read as its nanoseconds when it is rounded first. -/
theorem ofSeconds?_ofRatio (hb : 0 < b) (h : (a : ℚ) / b = d.inSeconds)
    (hd : d.nanoseconds < 2 ^ 23 * 10 ^ 9) : ofSeconds? (ofRatio a b) = some d := by
  have hlt : d.inSeconds < 2 ^ (-30 + 53 : Int) := by
    unfold inSeconds
    rw [div_lt_iff₀ (by norm_num)]
    have hcast : (d.nanoseconds : ℚ) < 2 ^ 23 * 10 ^ 9 := mod_cast hd
    norm_num at hcast ⊢
    exact hcast
  have hround := abs_value_ofRatio_sub_le_of_lt (e := -30) (by decide) hb (h.trans_lt hlt)
  rw [h] at hround
  apply ofSeconds?_of_near
  refine hround.trans_lt ?_
  norm_num

section Sums

lemma subsecond_lt (d : Duration) : (d.subsecond : ℚ) / 1000000000 < 1 := by
  rw [div_lt_one (by positivity)]
  exact mod_cast Nat.mod_lt d.nanoseconds (by decide)

lemma abs_sum_sub_le (h : d.seconds < 2 ^ 53) :
    |(ofRatio d.seconds 1).value + (ofRatio d.subsecond 1000000000).value - d.inSeconds| ≤
      1 / 2 ^ 54 := by
  have hlt : (d.subsecond : ℚ) / (1000000000 : Nat) < 2 ^ (-53 + 53 : Int) := by
    simpa using d.subsecond_lt
  have hround := abs_value_ofRatio_sub_le_of_lt (e := -53) (by decide) (by decide) hlt
  rw [value_ofRatio_natCast h, inSeconds_eq, add_sub_add_left_eq_sub]
  refine (le_of_eq ?_).trans (hround.trans (le_of_eq ?_))
  · norm_num
  · norm_num

/-- Whole seconds that are a value are written as that value. -/
theorem toSeconds_of_whole {n : Nat} (hx : x.Canonical) (hn : x.value = n)
    (hd : d.nanoseconds = n * 10 ^ 9) : d.toSeconds = x := by
  have hseconds : d.seconds = n := by
    unfold seconds
    omega
  have hsubsecond : d.subsecond = 0 := by
    unfold subsecond
    omega
  have hfirst : ofRatio n 1 = x := ofRatio_eq_of_value_eq Nat.one_pos hx (by simp [hn])
  have hzero : (ofRatio 0 1000000000).value = 0 := by simp [ofRatio, value]
  unfold toSeconds
  rw [hseconds, hsubsecond, hfirst]
  exact add_eq_of_value_eq hx (by rw [hzero, add_zero])

/-- Durations of up to 2^23 seconds are read back as they were. -/
theorem ofSeconds?_toSeconds (h : d.nanoseconds ≤ 2 ^ 23 * 10 ^ 9) :
    ofSeconds? d.toSeconds = some d := by
  apply ofSeconds?_of_near
  rcases h.eq_or_lt with h | h
  · have hvalue : value ⟨2 ^ 52, -29⟩ = (2 ^ 23 : Nat) := by
      unfold value
      norm_num
    rw [toSeconds_of_whole (x := ⟨2 ^ 52, -29⟩) (by decide) hvalue h, hvalue, inSeconds, h]
    norm_num
  · have hseconds : d.seconds < 2 ^ 53 := by
      unfold seconds
      omega
    have hsum := abs_sum_sub_le hseconds
    have hle : d.inSeconds ≤ 2 ^ 23 - 1 / 1000000000 := by
      have hcast : (d.nanoseconds : ℚ) + 1 ≤ 2 ^ 23 * 10 ^ 9 := mod_cast h
      unfold inSeconds
      rw [div_le_iff₀ (by positivity)]
      linarith
    have hround := abs_value_add_sub_le (e := -30) (x := ofRatio d.seconds 1)
      (y := ofRatio d.subsecond 1000000000) (by decide) (by
        have := (abs_le.mp hsum).2
        norm_num at this hle ⊢
        linarith)
    calc |d.toSeconds.value - d.inSeconds| ≤ 2 ^ (-30 : Int) / 2 + 1 / 2 ^ 54 :=
          (abs_sub_le _ _ _).trans (add_le_add hround hsum)
      _ < 1 / 2000000000 := by norm_num

end Sums

section Large

lemma nanoseconds_of_whole {n : Nat} (hn : x.value = n) (h : ofSeconds? x = some d) :
    d.nanoseconds = n * 10 ^ 9 := by
  rw [← ofSeconds?_eq_some_iff.mp h]
  apply roundDiv_eq_of_near x.den_pos
  rw [nanosecond_fraction, hn]
  norm_num

lemma bounds_of_fraction (hx : x.Canonical) (hlarge : 2 ^ 23 ≤ x.value)
    (hfraction : ∀ n : Nat, x.value ≠ n) :
    -29 ≤ x.exponent ∧ x.exponent ≤ -1 ∧ 2 ^ 52 < x.mantissa := by
  have hlo : -29 ≤ x.exponent := by
    have hpow : (2 : ℚ) ^ (23 : Int) < 2 ^ (x.exponent + 53) := hlarge.trans_lt hx.value_lt
    have := (zpow_lt_zpow_iff_right₀ (by norm_num)).mp hpow
    omega
  have hhi : x.exponent ≤ -1 := by
    by_contra hn
    obtain ⟨k, hk⟩ := exists_multiple (x := x) (e := 0) (by omega)
    exact hfraction k (by simpa using hk)
  refine ⟨hlo, hhi, lt_of_le_of_ne ?_ fun hm => ?_⟩
  · refine hx.full.resolve_left fun hleast => ?_
    rw [minExponent] at hleast
    omega
  -- The least mantissa of an exponent gives a power of two, which is whole here.
  · obtain ⟨k, hk⟩ : ∃ k : Nat, 52 + x.exponent = k := ⟨(52 + x.exponent).toNat, by omega⟩
    refine hfraction (2 ^ k) ?_
    unfold value
    rw [← hm, Nat.cast_pow, Nat.cast_pow, Nat.cast_ofNat, ← zpow_natCast, ← zpow_natCast, ← hk,
      ← zpow_add₀ two_ne_zero]
    rfl

/-- From 2^23 seconds on what is read from a value is written as that value. -/
theorem toSeconds_of_ofSeconds? (hx : x.Canonical) (hlarge : 2 ^ 23 ≤ x.value)
    (h : ofSeconds? x = some d) : d.toSeconds = x := by
  by_cases hwhole : ∃ n : Nat, x.value = n
  · obtain ⟨n, hn⟩ := hwhole
    exact toSeconds_of_whole hx hn (nanoseconds_of_whole hn h)
  obtain ⟨hlo, hhi, hmantissa⟩ := bounds_of_fraction hx hlarge (not_exists.mp hwhole)
  have hread := abs_inSeconds_sub_le h
  -- the step is at least 2^-29 seconds, and the mantissa not the least one of its exponent
  set step : ℚ := 2 ^ x.exponent with hstep
  have hfine : 2 ^ (-29 : Int) ≤ step := zpow_le_zpow_right₀ (by norm_num) hlo
  have hcoarse : step ≤ 2 ^ (-1 : Int) := zpow_le_zpow_right₀ (by norm_num) hhi
  have hmore : (2 ^ 52 + 1) * step ≤ x.value := by
    have hcast : (2 : ℚ) ^ 52 + 1 ≤ x.mantissa := mod_cast hmantissa
    unfold value
    gcongr
  have hless : x.value ≤ (2 ^ 53 - 1) * step := by
    have hcast : (x.mantissa : ℚ) + 1 ≤ 2 ^ 53 := mod_cast hx.lt
    unfold value
    gcongr
    linarith
  have hseconds : d.seconds < 2 ^ 53 := by
    have hle : (d.seconds : ℚ) ≤ d.inSeconds := by
      rw [inSeconds_eq]
      exact le_add_of_nonneg_right (by positivity)
    have hlt : (d.seconds : ℚ) < 2 ^ 53 := by
      refine hle.trans_lt ?_
      have := (abs_le.mp hread).2
      norm_num at this hless hcoarse ⊢
      linarith
    exact mod_cast hlt
  have hsum := abs_sum_sub_le hseconds
  set sum := (ofRatio d.seconds 1).value + (ofRatio d.subsecond 1000000000).value
  have hnear : |sum - x.value| < step / 2 := by
    refine (abs_sub_le _ d.inSeconds _).trans_lt ?_
    norm_num at hsum hread hfine ⊢
    linarith
  have hbounds := abs_lt.mp hnear
  apply add_eq_of_near hx
  · rw [zpow_add₀ two_ne_zero, ← hstep]
    norm_num at hmore ⊢
    linarith
  · rw [zpow_add₀ two_ne_zero, ← hstep]
    norm_num at hless ⊢
    linarith
  · exact hnear

end Large

/-- What is read from a value is read back as it was, however large it is. -/
theorem ofSeconds?_toSeconds_of_read (hx : x.Canonical) (h : ofSeconds? x = some d) :
    ofSeconds? d.toSeconds = some d := by
  rcases lt_or_ge x.value (2 ^ 23) with hsmall | hlarge
  · apply ofSeconds?_toSeconds
    rw [← ofSeconds?_eq_some_iff.mp h]
    apply roundDiv_le x.den_pos
    rw [nanosecond_fraction]
    push_cast
    norm_num at hsmall ⊢
    linarith
  · rw [toSeconds_of_ofSeconds? hx hlarge h]
    exact h

end WheelFarm.Duration
