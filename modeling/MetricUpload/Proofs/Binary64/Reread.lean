import MetricUpload.Proofs.Binary64.Scaling
import MetricUpload.Proofs.Binary64.Written

namespace MetricUpload

namespace Binary64

/-- The double that is read for the text of a double. -/
def reread? (f : Binary64) : Option Binary64 := scaled? f.negative f.written.1 f.written.2

/-- Written with a whole number and a power of ten that are both doubles themselves. -/
def Brief (f : Binary64) : Prop := f.written.1 < limit ∧ f.written.2.natAbs < 23

instance (f : Binary64) : Decidable f.Brief := by
  unfold Brief
  infer_instance

variable {f : Binary64}

theorem eq_zero (h : f.isZero = true) : f = zero f.negative := by
  obtain ⟨negative, significand, exponent, canonical⟩ := f
  obtain rfl : significand = 0 := by simpa [isZero] using h
  have hhalf : ¬half ≤ 0 := by decide
  obtain rfl : exponent = -1074 := canonical.2.2.2.resolve_left hhalf
  rfl

theorem reread?_zero (h : f.isZero = true) : f.reread? = some f := by
  have hzero : ∀ negative, reread? (zero negative) = some (zero negative) := by decide +kernel
  rw [eq_zero h]
  exact hzero f.negative

/-- The two greatest doubles are rounded within the range, if only just. -/
theorem reread?_greatest : ∀ negative,
    reread? ⟨negative, 9007199254740990, 971, by decide⟩ =
        some ⟨negative, 9007199254740991, 971, by decide⟩ ∧
      reread? ⟨negative, 9007199254740991, 971, by decide⟩ =
        some ⟨negative, 9007199254740991, 971, by decide⟩ := by
  decide +kernel

theorem exists_reread?_greatest (hexponent : f.exponent = 971) (h : limit < f.significand + 3) :
    ∃ g, f.reread? = some g ∧ g.negative = f.negative ∧
      |g.magnitude - f.magnitude| ≤ 8 * 2 ^ f.exponent := by
  obtain ⟨negative, significand, exponent, canonical⟩ := f
  obtain rfl : exponent = 971 := hexponent
  have hlimit : limit = 9007199254740992 := rfl
  have hbelow := canonical.1
  have hcases : significand = 9007199254740990 ∨ significand = 9007199254740991 := by
    dsimp only at h
    omega
  have hunit := two_zpow_pos 971
  obtain ⟨hsecond, hfirst⟩ := reread?_greatest negative
  rcases hcases with rfl | rfl
  · refine ⟨_, hsecond, rfl, ?_⟩
    simp only [magnitude]
    rw [← sub_mul, abs_mul, abs_of_pos hunit]
    refine mul_le_mul_of_nonneg_right ?_ hunit.le
    norm_num
  · refine ⟨_, hfirst, rfl, ?_⟩
    rw [sub_self, abs_zero]
    exact mul_nonneg (by norm_num) hunit.le

/-- Below the two greatest doubles two roundings are no danger. -/
theorem Rounds.lt_overflow {x : ℚ} (hx : f.Rounds x)
    (hroom : f.exponent < 971 ∨ f.significand + 3 ≤ limit) : x < kept ^ 2 * overflow := by
  have hunit := two_zpow_pos f.exponent
  have hhigh := hx.high
  rw [div_le_iff₀ hunit] at hhigh
  have hpositive : (0 : ℚ) < f.significand + 1 / 2 := by positivity
  have hgreatest := two_zpow_pos 971
  -- In units of the greatest exponent.
  have hunits : ∃ c : ℚ, c < kept ^ 2 * (limit - 1 / 2) ∧ x ≤ c * 2 ^ (971 : Int) := by
    rcases hroom with hexponent | hsignificand
    · refine ⟨(f.significand + 1 / 2) / 2, ?_, hhigh.trans ?_⟩
      · have hcast : (f.significand : ℚ) < limit := by exact_mod_cast f.canonical.1
        have hvalue : ((limit : ℚ) + 1 / 2) / 2 < kept ^ 2 * (limit - 1 / 2) := by
          norm_num [kept, limit]
        linarith
      · have hpower : (2 : ℚ) ^ f.exponent * 2 ≤ 2 ^ (971 : Int) := by
          rw [← zpow_add_one₀ (by norm_num)]
          exact zpow_le_zpow_right₀ (by norm_num) (by omega)
        have := mul_le_mul_of_nonneg_left hpower hpositive.le
        linarith
    · refine ⟨f.significand + 1 / 2, ?_, hhigh.trans ?_⟩
      · have hcast : (f.significand : ℚ) + 3 ≤ limit := by exact_mod_cast hsignificand
        have hvalue : (limit : ℚ) - 5 / 2 < kept ^ 2 * (limit - 1 / 2) := by norm_num [kept, limit]
        linarith
      · have hpower : (2 : ℚ) ^ f.exponent ≤ 2 ^ (971 : Int) :=
          zpow_le_zpow_right₀ (by norm_num) f.canonical.2.2.1
        exact mul_le_mul_of_nonneg_left hpower hpositive.le
  obtain ⟨c, hc, hle⟩ := hunits
  rw [overflow, ← mul_assoc]
  exact hle.trans_lt (mul_lt_mul_of_pos_right hc hgreatest)

theorem reread?_of_brief (h : f.Brief) : f.reread? = some f := by
  by_cases hzero : f.isZero = true
  · exact reread?_zero hzero
  · obtain ⟨hrounds, hpos, -⟩ := written_bounds (Bool.not_eq_true _ ▸ hzero)
    exact scaled?_exact hrounds (endsNear_exact f.negative hpos h.1 h.2)

/-- Dividing by a power of ten leaves nothing near the end of the range. -/
theorem lt_overflow_of_neg {m : Nat} {power : Int} (hroom : m < 2 ^ 64) (hpower : power < 0) :
    (m : ℚ) * 10 ^ power < kept ^ 6 * overflow := by
  have hdown : (10 : ℚ) ^ power ≤ 1 := zpow_le_one_of_nonpos₀ (by norm_num) hpower.le
  have hkept : (1 : ℚ) / 2 ≤ kept ^ 6 := by norm_num [kept]
  have hpositive : 0 < overflow := (by positivity : (0 : ℚ) < _).trans greatestTen_lt_overflow
  calc (m : ℚ) * 10 ^ power ≤ m := mul_le_of_le_one_right (Nat.cast_nonneg m) hdown
    _ < 1 / 2 * overflow := lt_half_overflow hroom
    _ ≤ kept ^ 6 * overflow := mul_le_mul_of_nonneg_right hkept hpositive.le

/-- The text of every double is read as a double of the same sign that is at most eight units of the
last place away. -/
theorem exists_reread? (f : Binary64) :
    ∃ g, f.reread? = some g ∧ g.negative = f.negative ∧
      |g.magnitude - f.magnitude| ≤ 8 * 2 ^ f.exponent := by
  have hunit := two_zpow_pos f.exponent
  by_cases hzero : f.isZero = true
  · refine ⟨f, reread?_zero hzero, rfl, ?_⟩
    rw [sub_self, abs_zero]
    linarith
  · obtain ⟨hrounds, hpos, hroom, hlow, hhigh⟩ := written_bounds (Bool.not_eq_true _ ▸ hzero)
    have hten : greatestTen = 308 := rfl
    have hbelow : -((2 * greatestTen : Nat) : Int) ≤ f.written.2 := by omega
    have hends := exists_endsNear f.negative hpos hroom hbelow (by omega)
    split at hends
    next habove =>
      by_cases hgreatest : f.exponent < 971 ∨ f.significand + 3 ≤ limit
      · exact exists_scaled? hrounds hpos (by decide) hends (hrounds.lt_overflow hgreatest)
      · have hexponent := f.canonical.2.2.1
        exact exists_reread?_greatest (by omega) (by omega)
    next hdivided =>
      exact exists_scaled? hrounds hpos (by decide) hends (lt_overflow_of_neg hroom (by omega))

end Binary64

end MetricUpload
