import MetricUpload.Proofs.Json.DigitReading

namespace MetricUpload

namespace Binary64

/-- The number that is written for a double, as a whole number and a power of ten. When nothing stands
behind the point, the zero written there counts as a digit. -/
def written (f : Binary64) : Nat × Int :=
  if f.isZero then (0, -1)
  else if 0 ≤ f.scale ∧ f.power ≤ 15 then (f.digits * 10 ^ (f.scale.toNat + 1), -1)
  else (f.digits, f.scale)

variable {f : Binary64}

theorem ten_zpow_pos (e : Int) : (0 : ℚ) < 10 ^ e := zpow_pos (by norm_num) e

theorem le_of_ten_zpow_lt {a b : Int} (h : (10 : ℚ) ^ a < 10 ^ (b + 1)) : a ≤ b := by
  have := (zpow_lt_zpow_iff_right₀ (by norm_num : (1 : ℚ) < 10)).mp h
  omega

/-- Every double is below `10 ^ 309`. -/
theorem largest_lt : (2 : ℚ) ^ (1024 : Int) < 10 ^ (309 : Int) := by
  have h : 2 ^ 1024 < 10 ^ 309 := by decide +kernel
  exact_mod_cast h

/-- Half of the least positive double is above `10 ^ (-324)`. -/
theorem lt_least : (10 : ℚ) ^ (-324 : Int) < 2 ^ (-1075 : Int) := by
  have h : 2 ^ 1075 < 10 ^ 324 := by decide +kernel
  rw [zpow_neg, zpow_neg, inv_lt_inv₀ (ten_zpow_pos 324) (two_zpow_pos 1075)]
  exact_mod_cast h

theorem least_le_magnitude (h : f.isZero = false) : (2 : ℚ) ^ (-1074 : Int) ≤ f.magnitude := by
  have hone : (1 : ℚ) ≤ f.significand := by exact_mod_cast significand_pos h
  calc (2 : ℚ) ^ (-1074 : Int) ≤ 2 ^ f.exponent :=
        zpow_le_zpow_right₀ (by norm_num) f.canonical.2.1
    _ ≤ f.significand * 2 ^ f.exponent := le_mul_of_one_le_left (two_zpow_pos _).le hone

theorem Rounds.lt_largest {x : ℚ} (hx : f.Rounds x) : x < 10 ^ (309 : Int) := by
  have hexponent := f.canonical.2.2.1
  calc x < 2 ^ (f.exponent + 53) := hx.below
    _ ≤ 2 ^ (1024 : Int) := zpow_le_zpow_right₀ (by norm_num) (by omega)
    _ < 10 ^ (309 : Int) := largest_lt

theorem Rounds.least_lt (h : f.isZero = false) {x : ℚ} (hx : f.Rounds x) : 10 ^ (-324 : Int) < x := by
  have hhalf : (2 : ℚ) ^ (-1075 : Int) = 2 ^ (-1074 : Int) / 2 := by
    rw [show (-1075 : Int) = -1074 - 1 by norm_num, zpow_sub_one₀ (by norm_num), div_eq_mul_inv]
  have hleast := least_le_magnitude h
  have hbounds := (hx.bounds h).1
  have hsmall := lt_least
  rw [hhalf] at hsmall
  linarith

theorem digits_scale (f : Binary64) :
    (f.digits : ℚ) * 10 ^ f.scale = f.shortest.1 * 10 ^ f.shortest.2 := by
  have hn : (f.digits : ℚ) * 10 ^ (stripZeros 17 f.shortest.1).2 = f.shortest.1 := by
    exact_mod_cast stripZeros_mul 17 f.shortest.1
  rw [scale, zpow_add₀ (by norm_num), zpow_natCast, ← hn]
  ring

theorem rounds_digits (h : f.isZero = false) : f.Rounds (f.digits * 10 ^ f.scale) := by
  rw [digits_scale]
  exact (shortest_rounds h).1

theorem power_bounds (h : f.isZero = false) :
    (10 : ℚ) ^ f.power ≤ f.digits * 10 ^ f.scale ∧
      (f.digits : ℚ) * 10 ^ f.scale < 10 ^ (f.power + 1) := by
  obtain ⟨hlow, hhigh⟩ := length_toDigits_bounds (digits_pos h)
  have hlength : 0 < (Nat.toDigits 10 f.digits).length := Nat.length_toDigits_pos
  have hpower : f.power = ((Nat.toDigits 10 f.digits).length - 1 : Nat) + f.scale := by
    rw [power]
    omega
  have hnext : f.power + 1 = (Nat.toDigits 10 f.digits).length + f.scale := by omega
  have hten := ten_zpow_pos f.scale
  constructor
  · rw [hpower, zpow_add₀ (by norm_num), zpow_natCast]
    refine mul_le_mul_of_nonneg_right ?_ hten.le
    exact_mod_cast hlow
  · rw [hnext, zpow_add₀ (by norm_num), zpow_natCast]
    refine mul_lt_mul_of_pos_right ?_ hten
    exact_mod_cast hhigh

theorem power_range (h : f.isZero = false) : -324 ≤ f.power ∧ f.power ≤ 308 := by
  obtain ⟨hlow, hhigh⟩ := power_bounds h
  have hrounds := rounds_digits h
  exact ⟨le_of_ten_zpow_lt ((hrounds.least_lt h).trans hhigh),
    le_of_ten_zpow_lt (hlow.trans_lt hrounds.lt_largest)⟩

/-- Seventeen digits, and a carry at most. -/
theorem digits_lt (h : f.isZero = false) : f.digits < 2 * 10 ^ 17 := by
  obtain ⟨hrounds, -, hgrid⟩ := shortest_rounds h
  obtain ⟨-, hmagnitude⟩ := decimalExponent_bounds h
  have hhigh := (hrounds.bounds h).2
  have hten := ten_zpow_pos f.shortest.2
  have hpower : (10 : ℚ) ^ (decimalExponent f.num f.den + 1) ≤
      10 ^ (17 : Nat) * 10 ^ f.shortest.2 := by
    rw [← zpow_natCast, ← zpow_add₀ (by norm_num)]
    exact zpow_le_zpow_right₀ (by norm_num) (by omega)
  have hless : (f.shortest.1 : ℚ) < 2 * 10 ^ (17 : Nat) := by
    have hproduct : (f.shortest.1 : ℚ) * 10 ^ f.shortest.2 <
        2 * 10 ^ (17 : Nat) * 10 ^ f.shortest.2 := by
      linarith
    exact lt_of_mul_lt_mul_right hproduct hten.le
  have hdigits : f.digits ≤ f.shortest.1 := by
    have hpos : 0 < 10 ^ (stripZeros 17 f.shortest.1).2 := Nat.pow_pos (by decide)
    have hproduct := stripZeros_mul 17 f.shortest.1
    exact hproduct ▸ Nat.le_mul_of_pos_right f.digits hpos
  have hshortest : f.shortest.1 < 2 * 10 ^ 17 := by exact_mod_cast hless
  omega

theorem scale_range (h : f.isZero = false) : -340 ≤ f.scale ∧ f.scale ≤ 308 := by
  obtain ⟨-, -, hgrid⟩ := shortest_rounds h
  obtain ⟨-, hmagnitude⟩ := decimalExponent_bounds h
  have hleast : (10 : ℚ) ^ (-324 : Int) < 10 ^ (decimalExponent f.num f.den + 1) := by
    have hhalf : (2 : ℚ) ^ (-1075 : Int) ≤ 2 ^ (-1074 : Int) :=
      zpow_le_zpow_right₀ (by norm_num) (by norm_num)
    have := lt_least
    have := least_le_magnitude h
    linarith
  have hexponent := le_of_ten_zpow_lt hleast
  have hpower := (power_range h).2
  have hlength : 0 < (Nat.toDigits 10 f.digits).length := Nat.length_toDigits_pos
  constructor
  · rw [scale]
    omega
  · rw [power] at hpower
    omega

theorem zpow_scale (hscale : 0 ≤ f.scale) : (10 : ℚ) ^ f.scale = 10 ^ f.scale.toNat := by
  rw [← zpow_natCast, Int.toNat_of_nonneg hscale]

/-- The zero behind the point makes no difference to the value. -/
theorem whole_value (hscale : 0 ≤ f.scale) :
    ((f.digits * 10 ^ (f.scale.toNat + 1) : Nat) : ℚ) * 10 ^ (-1 : Int) =
      f.digits * 10 ^ f.scale := by
  rw [zpow_scale hscale]
  push_cast
  rw [pow_succ, zpow_neg_one]
  field_simp

theorem whole_lt (h : f.isZero = false) (hscale : 0 ≤ f.scale) (hpower : f.power ≤ 15) :
    f.digits * 10 ^ f.scale.toNat < 10 ^ 16 := by
  have hbelow := (power_bounds h).2
  rw [zpow_scale hscale] at hbelow
  have hten : (10 : ℚ) ^ (f.power + 1) ≤ 10 ^ (16 : Int) :=
    zpow_le_zpow_right₀ (by norm_num) (by omega)
  have hcast := hbelow.trans_le hten
  exact_mod_cast hcast

/-- What is written has the value of the shortest digits, fits the significand of a numeral, and stays
near the powers of ten of the doubles. -/
theorem written_bounds (h : f.isZero = false) :
    f.Rounds (f.written.1 * 10 ^ f.written.2) ∧ 0 < f.written.1 ∧ f.written.1 < Digits.room ∧
      -340 ≤ f.written.2 ∧ f.written.2 ≤ 308 := by
  have hrounds := rounds_digits h
  have hdigits := digits_pos h
  have hroom : Digits.room = 18446744073709551616 := rfl
  simp only [written, h, Bool.false_eq_true, ↓reduceIte]
  split
  next hwhole =>
    have hless := whole_lt h hwhole.1 hwhole.2
    refine ⟨whole_value hwhole.1 ▸ hrounds, Nat.mul_pos hdigits (Nat.pow_pos (by decide)), ?_, ?_, ?_⟩
    · rw [Nat.pow_succ, ← Nat.mul_assoc]
      omega
    · exact (by decide : (-340 : Int) ≤ -1)
    · exact (by decide : (-1 : Int) ≤ 308)
  next =>
    have hless := digits_lt h
    obtain ⟨hlow, hhigh⟩ := scale_range h
    exact ⟨hrounds, hdigits, by omega, hlow, hhigh⟩

/-- The reader takes the text of a double for the number that was written. -/
theorem readsAs_magnitudeChars (f : Binary64) :
    Numeral.ReadsAs f.magnitudeChars f.written.1 f.written.2 := by
  by_cases hzero : f.isZero = true
  · simp only [magnitudeChars, written, hzero, ↓reduceIte]
    have hone : ∀ c ∈ ['0'], c.isDigit = true := by simp
    exact Numeral.readsAs_pointed (.inl rfl) hone (by decide) (by decide)
  · have h : f.isZero = false := Bool.not_eq_true _ ▸ hzero
    have hdigits := leading_toDigits (digits_pos h)
    have hm : Nat.ofDigitChars 10 (Nat.toDigits 10 f.digits) 0 = f.digits := by simp
    have hlength : 0 < (Nat.toDigits 10 f.digits).length := Nat.length_toDigits_pos
    have hscale : f.power - ((Nat.toDigits 10 f.digits).length - 1) = f.scale := by
      rw [power]
      omega
    obtain ⟨-, -, hroom, -, -⟩ := written_bounds h
    have hrange := power_range h
    have hgreatest : Numeral.greatestExponent = 2147483647 := rfl
    simp only [magnitudeChars, written, h, Bool.false_eq_true, ↓reduceIte] at hroom ⊢
    by_cases hwhole : 0 ≤ f.scale ∧ f.power ≤ 15
    · have hnear : -5 ≤ f.power ∧ f.power ≤ 15 := by omega
      simp only [hwhole, hnear, and_self, ↓reduceIte] at hroom ⊢
      have hreads := Numeral.readsAs_positional_whole hdigits hm (hscale.symm ▸ hwhole.1)
        (by rw [hscale]; exact hroom)
      rwa [hscale] at hreads
    · simp only [hwhole, ↓reduceIte] at hroom ⊢
      split
      next hnear =>
        have hfraction : f.power - ((Nat.toDigits 10 f.digits).length - 1) < 0 := by omega
        have hreads := Numeral.readsAs_positional_fraction hdigits hm hroom hfraction
        rwa [hscale] at hreads
      next =>
        have hgreat : f.power.natAbs ≤ Numeral.greatestExponent := by omega
        have hreads := Numeral.readsAs_scientific hdigits hm hroom hgreat
        rwa [hscale] at hreads

end Binary64

end MetricUpload
