import MetricUpload.Binary64.Shortest
import MetricUpload.Proofs.Binary64.Rounding

namespace MetricUpload

namespace Binary64

variable {f : Binary64}

theorem significand_pos (h : f.isZero = false) : 0 < f.significand :=
  Nat.pos_of_ne_zero (by simpa [isZero] using h)

theorem num_pos (h : f.isZero = false) : 0 < f.num :=
  Nat.mul_pos (significand_pos h) (Nat.two_pow_pos _)

/-- A number has as many digits as the powers of ten around it tell. -/
theorem length_toDigits_bounds {n : Nat} (h : 0 < n) :
    10 ^ ((Nat.toDigits 10 n).length - 1) ≤ n ∧ n < 10 ^ (Nat.toDigits 10 n).length := by
  have hlength : 0 < (Nat.toDigits 10 n).length := Nat.length_toDigits_pos
  refine ⟨Nat.le_of_not_lt fun hless => ?_, ?_⟩
  · by_cases hone : (Nat.toDigits 10 n).length = 1
    · rw [hone, Nat.sub_self, Nat.pow_zero] at hless
      omega
    · have := (Nat.length_toDigits_le_iff (by decide) (by omega)).mpr hless
      omega
  · exact (Nat.length_toDigits_le_iff (by decide) hlength).mp (Nat.le_refl _)

theorem decimalExponent_le {num den : Nat} (hnum : 0 < num) (hden : 0 < den) :
    den * 10 ^ (decimalExponent num den).toNat ≤ num * 10 ^ (-decimalExponent num den).toNat := by
  unfold decimalExponent
  split
  next hle =>
    have hquotient : 0 < num / den := Nat.div_pos hle hden
    obtain ⟨hlow, -⟩ := length_toDigits_bounds hquotient
    have hlength : 0 < (Nat.toDigits 10 (num / den)).length := Nat.length_toDigits_pos
    have hup : (((Nat.toDigits 10 (num / den)).length : Int) - 1).toNat =
        (Nat.toDigits 10 (num / den)).length - 1 := by omega
    have hdown : (-(((Nat.toDigits 10 (num / den)).length : Int) - 1)).toNat = 0 := by omega
    rw [hup, hdown, Nat.pow_zero, Nat.mul_one, Nat.mul_comm]
    exact Nat.le_trans (Nat.mul_le_mul_right den hlow) (Nat.div_mul_le_self num den)
  next hless =>
    have hquotient : 0 < (den - 1) / num := Nat.div_pos (by omega) hnum
    obtain ⟨-, hhigh⟩ := length_toDigits_bounds hquotient
    have hden' : den - 1 < 10 ^ (Nat.toDigits 10 ((den - 1) / num)).length * num :=
      (Nat.div_lt_iff_lt_mul hnum).mp hhigh
    have hup : (-((Nat.toDigits 10 ((den - 1) / num)).length : Int)).toNat = 0 := by omega
    have hdown : (-(-((Nat.toDigits 10 ((den - 1) / num)).length : Int))).toNat =
        (Nat.toDigits 10 ((den - 1) / num)).length := by omega
    rw [hup, hdown, Nat.pow_zero, Nat.mul_one, Nat.mul_comm num]
    omega

theorem lt_decimalExponent {num den : Nat} (hnum : 0 < num) (hden : 0 < den) :
    num * 10 ^ (-(decimalExponent num den + 1)).toNat <
      den * 10 ^ (decimalExponent num den + 1).toNat := by
  unfold decimalExponent
  split
  next hle =>
    have hquotient : 0 < num / den := Nat.div_pos hle hden
    obtain ⟨-, hhigh⟩ := length_toDigits_bounds hquotient
    have hup : (((Nat.toDigits 10 (num / den)).length : Int) - 1 + 1).toNat =
        (Nat.toDigits 10 (num / den)).length := by omega
    have hdown : (-(((Nat.toDigits 10 (num / den)).length : Int) - 1 + 1)).toNat = 0 := by omega
    rw [hup, hdown, Nat.pow_zero, Nat.mul_one, Nat.mul_comm den]
    exact (Nat.div_lt_iff_lt_mul hden).mp hhigh
  next hless =>
    have hquotient : 0 < (den - 1) / num := Nat.div_pos (by omega) hnum
    obtain ⟨hlow, -⟩ := length_toDigits_bounds hquotient
    have hlength : 0 < (Nat.toDigits 10 ((den - 1) / num)).length := Nat.length_toDigits_pos
    have hden' : 10 ^ ((Nat.toDigits 10 ((den - 1) / num)).length - 1) * num ≤ den - 1 :=
      (Nat.le_div_iff_mul_le hnum).mp hlow
    have hup : (-((Nat.toDigits 10 ((den - 1) / num)).length : Int) + 1).toNat = 0 := by omega
    have hdown : (-(-((Nat.toDigits 10 ((den - 1) / num)).length : Int) + 1)).toNat =
        (Nat.toDigits 10 ((den - 1) / num)).length - 1 := by omega
    rw [hup, hdown, Nat.pow_zero, Nat.mul_one, Nat.mul_comm num]
    omega

theorem magnitude_pos (h : f.isZero = false) : 0 < f.magnitude := by
  have hpos : (0 : ℚ) < f.significand := by exact_mod_cast significand_pos h
  exact mul_pos hpos (two_zpow_pos _)

/-- What rounds to a double is at least half and at most one and a half of it. -/
theorem Rounds.bounds (h : f.isZero = false) {x : ℚ} (hx : f.Rounds x) :
    f.magnitude / 2 ≤ x ∧ x ≤ 3 / 2 * f.magnitude := by
  have hunit := two_zpow_pos f.exponent
  have hone : (1 : ℚ) ≤ f.significand := by exact_mod_cast significand_pos h
  have hgap := f.gapBelow_le
  have hlow : (f.significand : ℚ) / 2 ≤ x / 2 ^ f.exponent := by
    have := hx.low
    linarith
  have hhigh : x / 2 ^ f.exponent ≤ 3 / 2 * f.significand := by
    have := hx.high
    linarith
  rw [le_div_iff₀ hunit] at hlow
  rw [div_le_iff₀ hunit] at hhigh
  unfold magnitude
  constructor <;> linarith

/-- The number of parts that a unit of the last place of `f` is counted in on a grid. -/
def parts (f : Binary64) (grid : Int) : Nat :=
  4 * Nat.pow 2 f.exponent.toNat * Nat.pow 10 (-grid).toNat

theorem parts_pos (f : Binary64) (grid : Int) : (0 : ℚ) < f.parts grid := by
  have hpos : 0 < f.parts grid :=
    Nat.mul_pos (Nat.mul_pos (by decide) (Nat.two_pow_pos _)) (Nat.pow_pos (by decide))
  exact_mod_cast hpos

/-- A point of a grid in units of the last place. -/
theorem grid_point (f : Binary64) (grid : Int) (n : Nat) :
    (n : ℚ) * 10 ^ grid / 2 ^ f.exponent =
      (n * (f.roundingInterval.onGrid grid).den : Nat) / (f.parts grid : ℚ) := by
  simp only [RoundingInterval.onGrid, roundingInterval, parts, Nat.pow_eq]
  rw [zpow_toNat (by norm_num : (10 : ℚ) ≠ 0), zpow_toNat (by norm_num : (2 : ℚ) ≠ 0)]
  push_cast
  field_simp

theorem onGrid_value (f : Binary64) (grid : Int) :
    ((f.roundingInterval.onGrid grid).value : ℚ) = f.significand * f.parts grid := by
  simp only [RoundingInterval.onGrid, roundingInterval, parts, Nat.pow_eq]
  push_cast
  ring

theorem onGrid_high (f : Binary64) (grid : Int) :
    ((f.roundingInterval.onGrid grid).high : ℚ) = (f.significand + 1 / 2) * f.parts grid := by
  simp only [RoundingInterval.onGrid, roundingInterval, parts, Nat.pow_eq]
  push_cast
  ring

theorem onGrid_low (h : f.isZero = false) (grid : Int) :
    ((f.roundingInterval.onGrid grid).low : ℚ) = (f.significand - f.gapBelow) * f.parts grid := by
  have hne : f.significand ≠ 0 := by simpa [isZero] using h
  simp only [RoundingInterval.onGrid, roundingInterval, parts, Nat.pow_eq, gapBelow]
  split
  · rw [Nat.cast_mul, Nat.cast_mul, Nat.cast_sub (by omega)]
    push_cast
    ring
  · rw [Nat.cast_mul, Nat.cast_mul, Nat.cast_sub (by omega)]
    push_cast
    ring

/-- A point of a grid that lies in the interval rounds to the double. -/
theorem rounds_of_holds (h : f.isZero = false) {grid : Int} {n : Nat}
    (hn : (f.roundingInterval.onGrid grid).holds n = true) : f.Rounds (n * 10 ^ grid) := by
  have hparts := f.parts_pos grid
  have hlow := onGrid_low h grid
  have hhigh := f.onGrid_high grid
  have hclosed : (f.roundingInterval.onGrid grid).closed = (f.significand % 2 == 0) := rfl
  unfold RoundingInterval.holds at hn
  split at hn
  next heven =>
    rw [hclosed, beq_iff_eq] at heven
    simp only [Bool.and_eq_true, decide_eq_true_eq] at hn
    refine ⟨?_, ?_, fun _ => heven⟩
    · rw [grid_point, le_div_iff₀ hparts, ← hlow]
      exact_mod_cast hn.1
    · rw [grid_point, div_le_iff₀ hparts, ← hhigh]
      exact_mod_cast hn.2
  next =>
    simp only [Bool.and_eq_true, decide_eq_true_eq] at hn
    have hbelow : (f.significand : ℚ) - f.gapBelow < n * 10 ^ grid / 2 ^ f.exponent := by
      rw [grid_point, lt_div_iff₀ hparts, ← hlow]
      exact_mod_cast hn.1
    have habove : (n : ℚ) * 10 ^ grid / 2 ^ f.exponent < f.significand + 1 / 2 := by
      rw [grid_point, div_lt_iff₀ hparts, ← hhigh]
      exact_mod_cast hn.2
    refine ⟨hbelow.le, habove.le, ?_⟩
    rintro (heq | heq)
    · exact absurd heq hbelow.ne'
    · exact absurd heq habove.ne

/-- The middles to the neighbours are further away than the sixteenth part of the seventeenth digit. -/
theorem gapBelow_wide (f : Binary64) : (f.significand : ℚ) / 10 ^ 16 / 2 < f.gapBelow := by
  unfold gapBelow
  split
  next hhalf =>
    rw [hhalf.1]
    norm_num [half]
  next =>
    have hless : (f.significand : ℚ) < limit := by exact_mod_cast f.canonical.1
    have hlimit : (limit : ℚ) = 9007199254740992 := rfl
    linarith

/-- On a grid of seventeen digits the point nearest to the value is near enough. -/
theorem rounds_of_nearest {grid : Int}
    (hgrid : (10 : ℚ) ^ (grid + 16) ≤ f.magnitude) :
    f.Rounds (roundedQuotient (f.roundingInterval.onGrid grid).value
      (f.roundingInterval.onGrid grid).den * 10 ^ grid) := by
  have hparts := f.parts_pos grid
  have hunit := two_zpow_pos f.exponent
  have hwidth := f.grid_point grid 1
  rw [Nat.cast_one, one_mul, one_mul] at hwidth
  generalize hden : (f.roundingInterval.onGrid grid).den = den at hwidth
  generalize hn : roundedQuotient (f.roundingInterval.onGrid grid).value den = n
  generalize hw : (10 : ℚ) ^ grid / 2 ^ f.exponent = width at hwidth
  have hpositive : 0 < width := by
    rw [← hw]
    exact div_pos (zpow_pos (by norm_num) _) hunit
  have hdenpos : 0 < den := by
    have hq : (0 : ℚ) < den := by
      rw [hwidth] at hpositive
      exact (div_pos_iff_of_pos_right hparts).mp hpositive
    exact_mod_cast hq
  have hnear := (nearestEven_roundedQuotient (f.roundingInterval.onGrid grid).value hdenpos).near
  have hvalue : ((f.roundingInterval.onGrid grid).value : ℚ) / den * width = f.significand := by
    have hd : (den : ℚ) ≠ 0 := by positivity
    rw [onGrid_value, hwidth]
    field_simp
  have hnarrow : width ≤ f.significand / 10 ^ 16 := by
    rw [zpow_add₀ (by norm_num), magnitude, ← div_le_iff₀ hunit, mul_div_right_comm, hw] at hgrid
    rw [le_div_iff₀ (by norm_num)]
    exact hgrid
  have herror : |(n : ℚ) * width - f.significand| ≤ width / 2 := by
    rw [← hvalue, ← sub_mul, abs_mul, abs_of_pos hpositive, ← hn]
    have := mul_le_mul_of_nonneg_right hnear hpositive.le
    linarith
  have hwide := f.gapBelow_wide
  have hgap := f.gapBelow_le
  have hpoint : (n : ℚ) * 10 ^ grid / 2 ^ f.exponent = n * width := by rw [mul_div_assoc, hw]
  obtain ⟨hlow, hhigh⟩ := abs_le.mp herror
  refine ⟨by rw [hpoint]; linarith, by rw [hpoint]; linarith, ?_⟩
  rw [hpoint]
  rintro (heq | heq) <;> linarith

theorem decimalExponent_bounds (h : f.isZero = false) :
    (10 : ℚ) ^ decimalExponent f.num f.den ≤ f.magnitude ∧
      f.magnitude < 10 ^ (decimalExponent f.num f.den + 1) := by
  have hden : 0 < f.den := Nat.two_pow_pos _
  have hd : (0 : ℚ) < f.den := by exact_mod_cast hden
  have hten : ∀ n : Nat, (0 : ℚ) < 10 ^ n := fun n => by positivity
  have hlow : (f.den : ℚ) * 10 ^ (decimalExponent f.num f.den).toNat ≤
      f.num * 10 ^ (-decimalExponent f.num f.den).toNat := by
    exact_mod_cast decimalExponent_le (num_pos h) hden
  have hhigh : (f.num : ℚ) * 10 ^ (-(decimalExponent f.num f.den + 1)).toNat <
      f.den * 10 ^ (decimalExponent f.num f.den + 1).toNat := by
    exact_mod_cast lt_decimalExponent (num_pos h) hden
  rw [magnitude_eq, zpow_toNat (by norm_num), zpow_toNat (by norm_num)]
  constructor
  · rw [div_le_div_iff₀ (hten _) hd]
    linarith
  · rw [div_lt_div_iff₀ hd (hten _)]
    linarith

namespace RoundingInterval

theorem holds_of_nearest? {i : RoundingInterval} {n : Nat} (h : i.nearest? = some n) :
    i.holds n = true := by
  simp only [nearest?] at h
  split at h
  next hnear =>
    cases h
    exact hnear
  next =>
    by_cases hbelow : roundedQuotient i.value i.den = i.value / i.den
    · simp only [hbelow, ↓reduceIte] at h
      split at h
      next hfar =>
        cases h
        exact hfar
      next => cases h
    · simp only [hbelow, ↓reduceIte] at h
      split at h
      next hfar =>
        cases h
        exact hfar
      next => cases h

/-- The search ends on one of the grids, with a point in the interval or on the last of them. -/
theorem firstHit_cases (i : RoundingInterval) (tries : Nat) (grid : Int) :
    (i.firstHit tries grid).2 ≤ grid ∧ grid - tries ≤ (i.firstHit tries grid).2 ∧
      ((i.onGrid (i.firstHit tries grid).2).holds (i.firstHit tries grid).1 = true ∨
        i.firstHit tries grid = (roundedQuotient (i.onGrid (grid - tries)).value
          (i.onGrid (grid - tries)).den, grid - tries)) := by
  induction tries generalizing grid with
  | zero =>
    have hsame : grid - (0 : Nat) = grid := by omega
    simp only [firstHit, hsame]
    exact ⟨le_rfl, le_rfl, .inr trivial⟩
  | succ tries ih =>
    simp only [firstHit]
    split
    next n hn => exact ⟨le_rfl, by omega, .inl (holds_of_nearest? hn)⟩
    next =>
      obtain ⟨hhigh, hlow, hcases⟩ := ih (grid - 1)
      have hlast : grid - 1 - tries = grid - (tries + 1 : Nat) := by omega
      rw [hlast] at hlow hcases
      exact ⟨by omega, hlow, hcases⟩

end RoundingInterval

/-- The shortest decimal rounds to the double, and has at most seventeen digits. -/
theorem shortest_rounds (h : f.isZero = false) :
    f.Rounds (f.shortest.1 * 10 ^ f.shortest.2) ∧
      f.shortest.2 ≤ decimalExponent f.num f.den ∧
      decimalExponent f.num f.den - 16 ≤ f.shortest.2 := by
  obtain ⟨hhigh, hlow, hcases⟩ :=
    f.roundingInterval.firstHit_cases 16 (decimalExponent f.num f.den)
  refine ⟨?_, hhigh, hlow⟩
  unfold shortest
  rcases hcases with hholds | hlast
  · exact rounds_of_holds h hholds
  · have hgrid : decimalExponent f.num f.den - (16 : Nat) + 16 = decimalExponent f.num f.den := by
      omega
    rw [hlast]
    refine rounds_of_nearest ?_
    rw [hgrid]
    exact (decimalExponent_bounds h).1

/-- Some digit of a double that is not zero is written. -/
theorem shortest_pos (h : f.isZero = false) : 0 < f.shortest.1 := by
  have hlow := ((shortest_rounds h).1.bounds h).1
  have hmagnitude := magnitude_pos h
  refine Nat.pos_of_ne_zero fun hzero => ?_
  rw [hzero, Nat.cast_zero, zero_mul] at hlow
  linarith

end Binary64

end MetricUpload
