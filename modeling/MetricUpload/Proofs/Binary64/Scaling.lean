import MetricUpload.Proofs.Binary64.Drift
import MetricUpload.Proofs.Decimal.Whole

namespace MetricUpload

namespace Binary64

theorem greatestTen_lt_overflow : (10 : ℚ) ^ greatestTen < overflow := by
  have hless : 10 ^ 308 < (limit - 1) * 2 ^ 971 := by decide +kernel
  have hcast : (10 : ℚ) ^ 308 < ((limit - 1 : Nat) : ℚ) * 2 ^ (971 : Int) := by exact_mod_cast hless
  refine hcast.trans (mul_lt_mul_of_pos_right ?_ (two_zpow_pos 971))
  norm_num [limit]

theorem num_pos_of_magnitude {f : Binary64} (h : 0 < f.magnitude) : 0 < f.num := by
  refine Nat.pos_of_ne_zero fun hnum => ?_
  rw [magnitude_eq, hnum, Nat.cast_zero, zero_div] at h
  exact lt_irrefl 0 h

theorem isZero_of_num_pos {f : Binary64} (h : 0 < f.num) : f.isZero = false := by
  have hne : f.significand ≠ 0 := fun hzero => by simp [num, hzero] at h
  simpa [isZero] using hne

theorem times_ratio (f g : Binary64) :
    ((f.num * g.num : Nat) : ℚ) / (f.den * g.den : Nat) = f.magnitude * g.magnitude := by
  rw [magnitude_eq, magnitude_eq, div_mul_div_comm, Nat.cast_mul, Nat.cast_mul]

theorem over_ratio (f g : Binary64) :
    ((f.num * g.den : Nat) : ℚ) / (f.den * g.num : Nat) = f.magnitude / g.magnitude := by
  rw [magnitude_eq, magnitude_eq, div_div_div_eq, Nat.cast_mul, Nat.cast_mul]

/-- What fits a significand of 64 bits is nowhere near the end of the range. -/
theorem lt_half_overflow {m : Nat} (hroom : m < 2 ^ 64) : (m : ℚ) < 1 / 2 * overflow := by
  have hless : m < 2 * 10 ^ 19 := by omega
  have hcast : (m : ℚ) < 2 * 10 ^ 19 := by exact_mod_cast hless
  have hten : (10 : ℚ) ^ 20 < overflow :=
    (pow_le_pow_right₀ (by norm_num) (by decide)).trans_lt greatestTen_lt_overflow
  linarith

theorem lt_overflow {m : Nat} (hroom : m < 2 ^ 64) : (m : ℚ) < overflow := by
  have hsmall := lt_half_overflow hroom
  have hnonneg : (0 : ℚ) ≤ m := Nat.cast_nonneg m
  linarith

/-- A whole number is rounded once. -/
theorem exists_ofRatio?_whole (negative : Bool) {m : Nat} (hm : 0 < m) (hhigh : (m : ℚ) < overflow) :
    ∃ f, ofRatio? negative m 1 = some f ∧ f.negative = negative ∧ Drift 1 m f.magnitude := by
  have hone : (1 : ℚ) ≤ m := by exact_mod_cast hm
  have hvalue : (m : ℚ) / (1 : Nat) = m := by rw [Nat.cast_one, div_one]
  have hlow : (2 : ℚ) ^ (-1022 : Int) ≤ m / (1 : Nat) := by
    rw [hvalue]
    exact (zpow_le_one_of_nonpos₀ (by norm_num) (by norm_num)).trans hone
  obtain ⟨f, hf, hsign, hdrift⟩ :=
    exists_ofRatio?_drift negative hm Nat.one_pos hlow (by rw [hvalue]; exact hhigh)
  rw [hvalue] at hdrift
  exact ⟨f, hf, hsign, hdrift⟩

/-- Each power of ten that the reader multiplies or divides by is rounded once. -/
theorem exists_powerOfTen? {n : Nat} (hn : n ≤ greatestTen) :
    ∃ t, powerOfTen? n = some t ∧ Drift 1 (10 ^ n) t.magnitude := by
  have hvalue : ((10 ^ n : Nat) : ℚ) = 10 ^ n := by rw [Nat.cast_pow, Nat.cast_ofNat]
  have hhigh : ((10 ^ n : Nat) : ℚ) < overflow := by
    rw [hvalue]
    exact (pow_le_pow_right₀ (by norm_num) hn).trans_lt greatestTen_lt_overflow
  obtain ⟨t, ht, -, hdrift⟩ := exists_ofRatio?_whole false (Nat.pow_pos (by decide)) hhigh
  rw [hvalue] at hdrift
  exact ⟨t, ht, hdrift⟩

section

variable {negative : Bool} {m n : Nat}

theorem scaled?_raised (hn : n ≤ greatestTen) : scaled? negative m n =
    (ofRatio? negative m 1).bind fun f => (powerOfTen? n).bind f.times? := by
  have habove : (0 : Int) ≤ n := Int.natCast_nonneg n
  have hroom : (n : Int) ≤ greatestTen := by exact_mod_cast hn
  simp only [scaled?, habove, hroom, ↓reduceIte, Int.toNat_natCast]
  rfl

theorem scaled?_divided (hpos : 0 < n) (hn : n ≤ greatestTen) : scaled? negative m (-(n : Int)) =
    (ofRatio? negative m 1).bind fun f => (powerOfTen? n).bind f.over? := by
  have hbelow : ¬(0 : Int) ≤ -(n : Int) := by omega
  have hdepth : (- -(n : Int)).toNat = n := by omega
  have hrounds : (n - 1) / greatestTen = 0 := Nat.div_eq_of_lt (by omega)
  simp only [scaled?, hbelow, ↓reduceIte, hdepth, hrounds, lowered?, Nat.zero_mul, Nat.sub_zero]
  rfl

theorem scaled?_lowered (hpos : 0 < n) (hn : n ≤ greatestTen) :
    scaled? negative m (-((greatestTen + n : Nat) : Int)) =
      (ofRatio? negative m 1).bind fun f => (lowered? 1 f).bind fun g =>
        (powerOfTen? n).bind g.over? := by
  have hbelow : ¬(0 : Int) ≤ -((greatestTen + n : Nat) : Int) := by omega
  have hdepth : (- -((greatestTen + n : Nat) : Int)).toNat = greatestTen + n := by omega
  have hrounds : (greatestTen + n - 1) / greatestTen = 1 :=
    Nat.div_eq_of_lt_le (by omega) (by omega)
  have hrest : greatestTen + n - 1 * greatestTen = n := by omega
  simp only [scaled?, hbelow, ↓reduceIte, hdepth, hrounds, hrest]
  rfl

/-- The last step of the scaling rounds a number that the steps before it have taken from the exact
one by as many roundings. -/
def EndsNear (negative : Bool) (m : Nat) (power : Int) (roundings : Nat) : Prop :=
  ∃ num den : Nat, 0 < num ∧ 0 < den ∧ scaled? negative m power = ofRatio? negative num den ∧
    Drift roundings (m * 10 ^ power) (num / den)

theorem EndsNear.mono {power : Int} {k l : Nat} (h : EndsNear negative m power k) (hkl : k ≤ l) :
    EndsNear negative m power l := by
  obtain ⟨num, den, hnum, hden, hscaled, hdrift⟩ := h
  exact ⟨num, den, hnum, hden, hscaled, hdrift.mono hkl (by positivity) (by positivity)⟩

section

variable {f t : Binary64} {k l : Nat} (hf : ofRatio? negative m 1 = some f)
  (hsign : f.negative = negative) (ht : powerOfTen? n = some t) (hm : 0 < m) (hn : n ≤ greatestTen)
  (hwhole : Drift k m f.magnitude) (hten : Drift l (10 ^ n) t.magnitude)

include hf hsign ht hm hn hwhole hten

theorem endsNear_raised : EndsNear negative m n (k + l) := by
  have hpositive : (0 : ℚ) < m := by exact_mod_cast hm
  have hpower : (0 : ℚ) < 10 ^ n := by positivity
  refine ⟨f.num * t.num, f.den * t.den,
    Nat.mul_pos (num_pos_of_magnitude (hwhole.pos hpositive))
      (num_pos_of_magnitude (hten.pos hpower)),
    Nat.mul_pos f.den_pos t.den_pos, ?_, ?_⟩
  · rw [scaled?_raised hn, hf, ht, ← hsign]
    rfl
  · rw [times_ratio, zpow_natCast]
    exact hwhole.mul hten hpositive hpower

theorem endsNear_divided (hpos : 0 < n) : EndsNear negative m (-(n : Int)) (k + l) := by
  have hpositive : (0 : ℚ) < m := by exact_mod_cast hm
  have hpower : (0 : ℚ) < 10 ^ n := by positivity
  refine ⟨f.num * t.den, f.den * t.num,
    Nat.mul_pos (num_pos_of_magnitude (hwhole.pos hpositive)) t.den_pos,
    Nat.mul_pos f.den_pos (num_pos_of_magnitude (hten.pos hpower)), ?_, ?_⟩
  · rw [scaled?_divided hpos hn, hf, ht, ← hsign]
    rfl
  · rw [over_ratio, zpow_neg, zpow_natCast, ← div_eq_mul_inv]
    exact hwhole.div hten hpositive hpower

end

/-- The least quotient by the greatest power of ten is not much below the range of full precision. -/
theorem least_lowered : 2 / 5 * (2 : ℚ) ^ (-1022 : Int) ≤ kept ^ 2 * (1 / 10 ^ greatestTen) := by
  have hless : 4 * 10 ^ greatestTen ≤ 9 * 2 ^ 1022 := by decide +kernel
  have hcast : (4 : ℚ) * 10 ^ greatestTen ≤ 9 * 2 ^ 1022 := by exact_mod_cast hless
  have hkept : (9 : ℚ) / 10 ≤ kept ^ 2 := by norm_num [kept]
  have hten : (0 : ℚ) < 10 ^ greatestTen := by positivity
  have htwo : (0 : ℚ) < 2 ^ 1022 := by positivity
  have hdown : (2 : ℚ) ^ (-1022 : Int) = 1 / 2 ^ 1022 := by
    rw [zpow_neg, one_div]
    rfl
  calc 2 / 5 * (2 : ℚ) ^ (-1022 : Int) ≤ 9 / 10 * (1 / 10 ^ greatestTen) := by
        rw [hdown, mul_one_div, mul_one_div, div_le_div_iff₀ htwo hten]
        generalize (10 : ℚ) ^ greatestTen = ten at hcast
        generalize (2 : ℚ) ^ 1022 = two at hcast
        linarith
    _ ≤ kept ^ 2 * (1 / 10 ^ greatestTen) :=
        mul_le_mul_of_nonneg_right hkept (one_div_pos.mpr hten).le

theorem lowered_bounds {q : ℚ} (hm : 0 < m) (hroom : m < 2 ^ 64)
    (h : Drift 2 (m / 10 ^ greatestTen) q) : 2 / 5 * 2 ^ (-1022 : Int) ≤ q ∧ q < overflow := by
  have hone : (1 : ℚ) ≤ m := by exact_mod_cast hm
  have hpower : (0 : ℚ) < 10 ^ greatestTen := by positivity
  have hq := h.pos (div_pos (by linarith) hpower)
  constructor
  · have hleast : kept ^ 2 * (1 / 10 ^ greatestTen) ≤ kept ^ 2 * (m / 10 ^ greatestTen) := by
      have := kept_pos
      gcongr
    exact least_lowered.trans (hleast.trans h.low)
  · have hkept : (1 : ℚ) / 2 ≤ kept ^ 2 := by norm_num [kept]
    have hdown : (m : ℚ) / 10 ^ greatestTen ≤ m :=
      div_le_self (by linarith) (one_le_pow₀ (by norm_num))
    have hhalf : 1 / 2 * q ≤ kept ^ 2 * q := mul_le_mul_of_nonneg_right hkept hq.le
    have hsmall := lt_half_overflow hroom
    have hback := h.high
    linarith

theorem exists_lowered? (hm : 0 < m) (hroom : m < 2 ^ 64) {f : Binary64}
    (hwhole : Drift 1 m f.magnitude) :
    ∃ g, lowered? 1 f = some g ∧ g.negative = f.negative ∧
      Drift 5 (m / 10 ^ greatestTen) g.magnitude := by
  obtain ⟨t, ht, hten⟩ := exists_powerOfTen? (n := greatestTen) (le_refl _)
  have hpositive : (0 : ℚ) < m := by exact_mod_cast hm
  have hpower : (0 : ℚ) < 10 ^ greatestTen := by positivity
  have hquotient := hwhole.div hten hpositive hpower
  obtain ⟨hlow, hhigh⟩ := lowered_bounds hm hroom hquotient
  have hnum := num_pos_of_magnitude (hwhole.pos hpositive)
  rw [← over_ratio] at hlow hhigh
  obtain ⟨g, hg, hsign, hdrift⟩ := exists_ofRatio?_drift_three f.negative
    (Nat.mul_pos hnum t.den_pos)
    (Nat.mul_pos f.den_pos (num_pos_of_magnitude (hten.pos hpower))) hlow hhigh
  rw [over_ratio] at hdrift
  refine ⟨g, ?_, hsign, hquotient.trans hdrift⟩
  simp only [lowered?, isZero_of_num_pos hnum, Bool.false_eq_true, ↓reduceIte, ht]
  exact congrArg (Option.bind · some) hg

theorem endsNear_lowered (hm : 0 < m) (hroom : m < 2 ^ 64) (hpos : 0 < n) (hn : n ≤ greatestTen) :
    EndsNear negative m (-((greatestTen + n : Nat) : Int)) 6 := by
  obtain ⟨f, hf, hsign, hwhole⟩ := exists_ofRatio?_whole negative hm (lt_overflow hroom)
  obtain ⟨g, hg, hsame, hlowered⟩ := exists_lowered? hm hroom hwhole
  obtain ⟨t, ht, hten⟩ := exists_powerOfTen? hn
  have hpositive : (0 : ℚ) < m / 10 ^ greatestTen := by
    have : (0 : ℚ) < m := by exact_mod_cast hm
    positivity
  have hpower : (0 : ℚ) < 10 ^ n := by positivity
  refine ⟨g.num * t.den, g.den * t.num,
    Nat.mul_pos (num_pos_of_magnitude (hlowered.pos hpositive)) t.den_pos,
    Nat.mul_pos g.den_pos (num_pos_of_magnitude (hten.pos hpower)), ?_, ?_⟩
  · rw [scaled?_lowered hpos hn, hf, ← hsign, ← hsame]
    change (lowered? 1 f).bind _ = _
    rw [hg]
    change (powerOfTen? n).bind _ = _
    rw [ht]
    rfl
  · rw [over_ratio, zpow_neg, zpow_natCast, pow_add, mul_inv, ← mul_assoc, ← div_eq_mul_inv,
      ← div_eq_mul_inv]
    exact hlowered.div hten hpositive hpower

theorem exists_endsNear (negative : Bool) (hm : 0 < m) (hroom : m < 2 ^ 64) {power : Int}
    (hlow : -(2 * greatestTen : Nat) ≤ power) (hhigh : power ≤ greatestTen) :
    EndsNear negative m power (if 0 ≤ power then 2 else 6) := by
  obtain ⟨f, hf, hsign, hwhole⟩ := exists_ofRatio?_whole negative hm (lt_overflow hroom)
  split
  next habove =>
    obtain ⟨n, rfl⟩ := Int.eq_ofNat_of_zero_le habove
    have hn : n ≤ greatestTen := by omega
    obtain ⟨t, ht, hten⟩ := exists_powerOfTen? hn
    exact endsNear_raised hf hsign ht hm hn hwhole hten
  next hbelow =>
    obtain ⟨n, hn⟩ := Int.eq_ofNat_of_zero_le (a := -power) (by omega)
    obtain rfl : power = -(n : Int) := by omega
    by_cases hshallow : n ≤ greatestTen
    · obtain ⟨t, ht, hten⟩ := exists_powerOfTen? hshallow
      exact (endsNear_divided hf hsign ht hm hshallow hwhole hten (by omega)).mono (by decide)
    · obtain ⟨rest, rfl⟩ := Nat.exists_eq_add_of_lt (not_le.mp hshallow)
      exact endsNear_lowered hm hroom (Nat.succ_pos rest) (by omega)

/-- Up to the twenty-second the powers of ten are doubles. -/
theorem powerOfTen?_exact : ∀ n < 23, ∃ t ∈ powerOfTen? n, t.num = 10 ^ n * t.den := by
  decide +kernel

theorem drift_of_num {f : Binary64} {k : Nat} (h : f.num = k * f.den) : Drift 0 k f.magnitude := by
  have hden : (f.den : ℚ) ≠ 0 := by exact_mod_cast f.den_pos.ne'
  have hvalue : f.magnitude = k := by
    rw [magnitude_eq, h, Nat.cast_mul, mul_div_cancel_right₀ _ hden]
  exact .of_eq hvalue.symm

/-- When the significand and the power of ten are doubles, only the last step rounds. -/
theorem endsNear_exact (negative : Bool) (hm : 0 < m) (hlimit : m < limit) {power : Int}
    (hpower : power.natAbs < 23) : EndsNear negative m power 0 := by
  obtain ⟨f, hf, hsign, hnum⟩ := ofRatio?_whole negative hm hlimit Nat.one_pos
  rw [Nat.mul_one] at hf
  obtain ⟨t, ht, hten⟩ := powerOfTen?_exact power.natAbs hpower
  have hn : power.natAbs ≤ greatestTen := (Nat.le_of_lt hpower).trans (by decide)
  have hwhole := drift_of_num hnum
  have hdrift := drift_of_num hten
  rw [Nat.cast_pow, Nat.cast_ofNat] at hdrift
  rcases Int.le_total 0 power with habove | hbelow
  · have hraised := endsNear_raised hf hsign ht hm hn hwhole hdrift
    rwa [Int.natAbs_of_nonneg habove] at hraised
  · by_cases hzero : power = 0
    · subst hzero
      exact endsNear_raised hf hsign ht hm hn hwhole hdrift
    · have hdivided := endsNear_divided hf hsign ht hm hn hwhole hdrift (by omega)
      have habs : -(power.natAbs : Int) = power := by omega
      rwa [habs] at hdivided

end

theorem Rounds.near {f : Binary64} {x : ℚ} (hx : f.Rounds x) :
    |x - f.magnitude| ≤ 2 ^ f.exponent / 2 := by
  have hunit := two_zpow_pos f.exponent
  have hlow := hx.low
  have hhigh := hx.high
  have hgap := f.gapBelow_le
  have hbelow : (f.significand : ℚ) - 1 / 2 ≤ x / 2 ^ f.exponent := by linarith
  rw [le_div_iff₀ hunit] at hbelow
  rw [div_le_iff₀ hunit] at hhigh
  unfold magnitude
  exact abs_le.mpr ⟨by linarith, by linarith⟩

/-- Six roundings move a number by little more than six units of the last place. -/
theorem Drift.near {f : Binary64} {x y : ℚ} (hx : f.Rounds x) (h : Drift 6 x y) :
    |y - x| ≤ (6 + 1 / 100) * 2 ^ f.exponent := by
  have hunit := two_zpow_pos f.exponent
  have hbelow : x < 2 ^ 53 * 2 ^ f.exponent := by
    have := hx.below
    rwa [add_comm, zpow_add₀ (by norm_num)] at this
  obtain ⟨hlow, hhigh⟩ := h
  norm_num [kept] at hlow hhigh hbelow
  generalize (2 : ℚ) ^ f.exponent = unit at hunit hbelow ⊢
  exact abs_le.mpr ⟨by linarith, by linarith⟩

/-- What is read for a decimal that rounds to a double is at most eight units of the last place away
from that double. -/
theorem exists_scaled? {f : Binary64} {m k : Nat} {power : Int} (hx : f.Rounds (m * 10 ^ power))
    (hm : 0 < m) (hk : k ≤ 6) (hends : EndsNear f.negative m power k)
    (hroom : (m : ℚ) * 10 ^ power < kept ^ k * overflow) :
    ∃ g, scaled? f.negative m power = some g ∧ g.negative = f.negative ∧
      |g.magnitude - f.magnitude| ≤ 8 * 2 ^ f.exponent := by
  obtain ⟨num, den, hnum, hden, hscaled, hdrift⟩ := hends
  have hpositive : (0 : ℚ) < m * 10 ^ power := by
    have : (0 : ℚ) < m := by exact_mod_cast hm
    positivity
  have hquotient := hdrift.pos hpositive
  have hhigh : (num : ℚ) / den < overflow :=
    lt_of_mul_lt_mul_left (hdrift.high.trans_lt hroom) (pow_pos kept_pos k).le
  obtain ⟨g, e, hg, hsign, he, herror⟩ := exists_ofRatio? f.negative hnum hden hhigh
  have hmoved := (hdrift.mono hk hpositive.le hquotient.le).near hx
  have hmiddle := hx.near
  have hbelow := hx.below
  rw [add_comm, zpow_add₀ (by norm_num)] at hbelow
  generalize (m : ℚ) * 10 ^ power = x at hmoved hmiddle hbelow
  generalize (num : ℚ) / den = quotient at hmoved herror he
  have hunit := two_zpow_pos f.exponent
  have hlast : (2 : ℚ) ^ e / 2 ≤ (1 + 1 / 100) * 2 ^ f.exponent := by
    rcases he.full with rfl | hfull
    · have hleast : (2 : ℚ) ^ (-1074 : Int) ≤ 2 ^ f.exponent :=
        zpow_le_zpow_right₀ (by norm_num) f.canonical.2.1
      linarith
    · rw [zpow_add₀ (by norm_num)] at hfull
      obtain ⟨-, habove⟩ := abs_le.mp hmoved
      norm_num at hfull hbelow
      linarith
  refine ⟨g, hscaled.trans hg, hsign, ?_⟩
  obtain ⟨hlow₁, hhigh₁⟩ := abs_le.mp herror
  obtain ⟨hlow₂, hhigh₂⟩ := abs_le.mp hmoved
  obtain ⟨hlow₃, hhigh₃⟩ := abs_le.mp hmiddle
  exact abs_le.mpr ⟨by linarith, by linarith⟩

theorem scaled?_exact {f : Binary64} {m : Nat} {power : Int} (hx : f.Rounds (m * 10 ^ power))
    (hends : EndsNear f.negative m power 0) : scaled? f.negative m power = some f := by
  obtain ⟨num, den, hnum, hden, hscaled, hdrift⟩ := hends
  rw [hdrift.eq] at hx
  exact hscaled.trans (ofRatio?_of_rounds hnum hden hx)

end Binary64

end MetricUpload
