import MetricUpload.Proofs.Binary64.Scaling

namespace MetricUpload

namespace Binary64

theorem ofParts?_eq_none (negative : Bool) {significand : Nat} {exponent : Int}
    (h : 971 < exponent) : ofParts? negative significand exponent = none := by
  have hbeyond : ¬Canonical significand exponent := by
    intro hcanonical
    have := hcanonical.2.2.1
    omega
  simp only [ofParts?, hbeyond, ↓reduceDIte]

/-- The greatest significand is odd, so that a half above it goes up. -/
theorem NearestEven.eq_limit {x : ℚ} {k : Nat} (he : Fitting x 971) (hx : overflow ≤ x)
    (hk : NearestEven k (x / 2 ^ (971 : Int))) : k = limit := by
  have hlimit := hk.le_limit he
  have hunits : (limit : ℚ) - 1 / 2 ≤ x / 2 ^ (971 : Int) := by
    rw [le_div_iff₀ (two_zpow_pos 971)]
    exact hx
  by_contra hne
  have hless : k + 1 ≤ limit := by omega
  have hcast : (k : ℚ) + 1 ≤ limit := by exact_mod_cast hless
  rcases hk with hnear | ⟨hhalf, heven⟩
  · rw [abs_lt] at hnear
    linarith
  · obtain ⟨hlow, -⟩ := abs_le.mp hhalf.le
    have hnext : (limit : ℚ) ≤ k + 1 := by linarith
    have hlast : limit ≤ k + 1 := by exact_mod_cast hnext
    have hvalue : limit = 9007199254740992 := rfl
    omega

/-- From the overflow on nothing is rounded into the finite range. -/
theorem ofRatio?_eq_none (negative : Bool) {num den : Nat} (hnum : 0 < num) (hden : 0 < den)
    (hx : overflow ≤ (num : ℚ) / den) : ofRatio? negative num den = none := by
  have he := fitting_fittingExponent hnum hden
  generalize fittingExponent num den = e at he
  have hk := nearestEven_roundedQuotient (inUnits num den e).1 (inUnits_pos num hden e)
  rw [inUnits_ratio num hden] at hk
  generalize roundedQuotient (inUnits num den e).1 (inUnits num den e).2 = k at hk
  have hexponent : 971 ≤ e := by
    by_contra hsmall
    have hpower : (2 : ℚ) ^ (e + 53) ≤ 2 ^ (52 + 971 : Int) :=
      zpow_le_zpow_right₀ (by norm_num) (by omega)
    have hwide : (2 : ℚ) ^ (52 + 971 : Int) < overflow := by
      rw [zpow_add₀ (by norm_num), overflow]
      exact mul_lt_mul_of_pos_right (by norm_num [limit]) (two_zpow_pos 971)
    exact absurd (hx.trans_lt he.below) (not_lt.mpr (hpower.trans hwide.le))
  rw [ofRatio?_of_fitting negative hnum hden he hk]
  rcases hexponent.lt_or_eq with hlarge | rfl
  · split <;> exact ofParts?_eq_none negative (by omega)
  · rw [if_pos (hk.eq_limit he hx)]
    exact ofParts?_eq_none negative (by norm_num)

theorem magnitude_lt_overflow (f : Binary64) : f.magnitude < overflow := by
  have hbelow : f.significand + 1 ≤ limit := f.canonical.1
  have hcast : (f.significand : ℚ) + 1 ≤ limit := by exact_mod_cast hbelow
  have hpower : (2 : ℚ) ^ f.exponent ≤ 2 ^ (971 : Int) :=
    zpow_le_zpow_right₀ (by norm_num) f.canonical.2.2.1
  calc f.magnitude ≤ f.significand * 2 ^ (971 : Int) :=
        mul_le_mul_of_nonneg_left hpower (Nat.cast_nonneg _)
    _ < overflow := mul_lt_mul_of_pos_right (by linarith) (two_zpow_pos 971)

theorem ofRatio?_zero (negative : Bool) (den : Nat) : ofRatio? negative 0 den = some (zero negative) :=
  rfl

/-- A quotient by one or more stays in the range. -/
theorem exists_over? (f : Binary64) {t : Binary64} (ht : 1 ≤ t.magnitude) :
    ∃ g, f.over? t = some g := by
  have htnum := num_pos_of_magnitude (zero_lt_one.trans_le ht)
  rcases Nat.eq_zero_or_pos f.num with hzero | hpos
  · exact ⟨_, by rw [over?, hzero, Nat.zero_mul, ofRatio?_zero]⟩
  · have hhigh : ((f.num * t.den : Nat) : ℚ) / (f.den * t.num : Nat) < overflow := by
      rw [over_ratio]
      have hnonneg : 0 ≤ f.magnitude := by
        rw [magnitude_eq]
        positivity
      exact (div_le_self hnonneg ht).trans_lt f.magnitude_lt_overflow
    obtain ⟨g, _, hg, _⟩ := exists_ofRatio? f.negative (Nat.mul_pos hpos t.den_pos)
      (Nat.mul_pos f.den_pos htnum) hhigh
    exact ⟨g, hg⟩

theorem exists_powerOfTen?_ge {n : Nat} (hpos : 0 < n) (hn : n ≤ greatestTen) :
    ∃ t, powerOfTen? n = some t ∧ 1 ≤ t.magnitude := by
  obtain ⟨t, ht, hdrift⟩ := exists_powerOfTen? hn
  refine ⟨t, ht, le_trans ?_ hdrift.low⟩
  have hten : (10 : ℚ) ^ 1 ≤ 10 ^ n := pow_le_pow_right₀ (by norm_num) hpos
  norm_num [kept] at hten ⊢
  linarith

theorem exists_lowered?_of_any (times : Nat) (f : Binary64) : ∃ g, lowered? times f = some g := by
  induction times generalizing f with
  | zero => exact ⟨f, rfl⟩
  | succ times ih =>
    by_cases hzero : f.isZero = true
    · exact ⟨f, by simp only [lowered?, hzero, ↓reduceIte]⟩
    · obtain ⟨t, ht, hone⟩ := exists_powerOfTen?_ge (n := greatestTen) (by decide) le_rfl
      obtain ⟨g, hg⟩ := exists_over? f hone
      obtain ⟨h, hh⟩ := ih g
      refine ⟨h, ?_⟩
      rw [Bool.not_eq_true] at hzero
      simp only [lowered?, hzero, ht, Bool.false_eq_true, ↓reduceIte]
      change (f.over? t).bind (lowered? times) = some h
      rw [hg]
      exact hh

section

variable {negative : Bool} {m : Nat} {power : Int} {x : ℚ}

theorem exists_ofRatio?_room (negative : Bool) (hroom : m < 2 ^ 64) :
    ∃ f, ofRatio? negative m 1 = some f := by
  rcases Nat.eq_zero_or_pos m with rfl | hm
  · exact ⟨_, ofRatio?_zero negative 1⟩
  · obtain ⟨f, hf, _⟩ := exists_ofRatio?_whole negative hm (lt_overflow hroom)
    exact ⟨f, hf⟩

/-- A negative power of ten leads to some double. -/
theorem exists_scaled?_of_neg (negative : Bool) (hroom : m < 2 ^ 64) (hpower : power < 0) :
    ∃ f, scaled? negative m power = some f := by
  obtain ⟨f, hf⟩ := exists_ofRatio?_room negative hroom
  have hbelow : ¬0 ≤ power := by omega
  obtain ⟨n, hn⟩ : ∃ n, (-power).toNat = n := ⟨_, rfl⟩
  have hrest : 0 < n - (n - 1) / greatestTen * greatestTen ∧
      n - (n - 1) / greatestTen * greatestTen ≤ greatestTen := by
    show 0 < n - (n - 1) / 308 * 308 ∧ n - (n - 1) / 308 * 308 ≤ 308
    omega
  obtain ⟨t, ht, hone⟩ := exists_powerOfTen?_ge hrest.1 hrest.2
  obtain ⟨g, hg⟩ := exists_lowered?_of_any ((n - 1) / greatestTen) f
  obtain ⟨h, hh⟩ := exists_over? g hone
  refine ⟨h, ?_⟩
  simp only [scaled?, hf, hbelow, ↓reduceIte, hn]
  change (lowered? ((n - 1) / greatestTen) f).bind _ = some h
  rw [hg]
  change (powerOfTen? _).bind _ = some h
  rw [ht]
  exact hh

theorem scaled?_beyond {f : Binary64} (hf : ofRatio? negative m 1 = some f)
    (hpower : (greatestTen : Int) < power) :
    scaled? negative m power = if f.isZero then some f else none := by
  have habove : 0 ≤ power := by omega
  have hbeyond : ¬power ≤ greatestTen := by omega
  simp only [scaled?, hf, habove, hbeyond, ↓reduceIte]
  rfl

theorem exists_scaled?_zero (negative : Bool) (power : Int) :
    ∃ f, scaled? negative 0 power = some f := by
  rcases Int.lt_or_le power 0 with hneg | habove
  · exact exists_scaled?_of_neg negative (by decide) hneg
  by_cases hten : power ≤ greatestTen
  · obtain ⟨n, rfl⟩ := Int.eq_ofNat_of_zero_le habove
    have hn : n ≤ greatestTen := by omega
    obtain ⟨t, ht, _⟩ := exists_powerOfTen? hn
    refine ⟨zero negative, ?_⟩
    rw [scaled?_raised hn, ofRatio?_zero, Option.bind_some, ht, Option.bind_some, times?]
    have hnum : (zero negative).num = 0 := rfl
    rw [hnum, Nat.zero_mul, ofRatio?_zero]
    rfl
  · exact ⟨_, scaled?_beyond (ofRatio?_zero negative 1) (by omega)⟩

end

/-- The end of the range in units of the greatest doubles' last place. -/
theorem two_pow_eq : (2 : ℚ) ^ 1024 = 2 ^ 53 * 2 ^ (971 : Int) := by
  rw [← zpow_natCast, ← zpow_natCast, ← zpow_add₀ (by norm_num)]
  norm_num

theorem two_pow_margin : (2 : ℚ) ^ 973 = 4 * 2 ^ (971 : Int) := by
  rw [← zpow_natCast, show (4 : ℚ) = 2 ^ (2 : Int) by norm_num, ← zpow_add₀ (by norm_num)]
  norm_num

/-- Three roundings take a number that is four units below the end of the range not up to the overflow,
and one that is four units above it not down to it. -/
theorem kept_overflow : 2 ^ 1024 - 2 ^ 973 ≤ kept ^ 3 * overflow ∧
    overflow ≤ kept ^ 3 * (2 ^ 1024 + 2 ^ 973) := by
  have hunit := two_zpow_pos 971
  have hbelow : (2 ^ 53 - 4 : ℚ) ≤ kept ^ 3 * (limit - 1 / 2) := by norm_num [kept, limit]
  have habove : (limit : ℚ) - 1 / 2 ≤ kept ^ 3 * (2 ^ 53 + 4) := by norm_num [kept, limit]
  rw [two_pow_eq, two_pow_margin, overflow, ← sub_mul, ← add_mul, ← mul_assoc, ← mul_assoc]
  exact ⟨mul_le_mul_of_nonneg_right hbelow hunit.le, mul_le_mul_of_nonneg_right habove hunit.le⟩

section

variable {negative : Bool} {m : Nat} {power : Int} {x : ℚ}

/-- Beyond the greatest power of ten lies nothing but what is far beyond the range. -/
theorem lt_of_greatestTen_lt (hm : 0 < m) (hpower : (greatestTen : Int) < power) :
    2 * 2 ^ 1024 < (m : ℚ) * 10 ^ power := by
  have hless : 2 * 2 ^ 1024 < 10 ^ 309 := by decide +kernel
  have hcast : (2 : ℚ) * 2 ^ 1024 < 10 ^ (309 : Int) := by exact_mod_cast hless
  have hone : (1 : ℚ) ≤ m := by exact_mod_cast hm
  have hten : greatestTen = 308 := rfl
  have hraised : (10 : ℚ) ^ (309 : Int) ≤ 10 ^ power :=
    zpow_le_zpow_right₀ (by norm_num) (by omega)
  calc (2 : ℚ) * 2 ^ 1024 < 10 ^ (309 : Int) := hcast
    _ ≤ 10 ^ power := hraised
    _ ≤ m * 10 ^ power := le_mul_of_one_le_left (by positivity) hone

/-- Within the powers of ten of the range, three roundings are behind the number that is rounded
last. -/
theorem exists_scaled?_eq (negative : Bool) (hm : 0 < m) (hroom : m < 2 ^ 64) (habove : 0 ≤ power)
    (hten : power ≤ greatestTen) (h : Drift 1 x (m * 10 ^ power)) :
    ∃ num den : Nat, 0 < num ∧ 0 < den ∧ scaled? negative m power = ofRatio? negative num den ∧
      Drift 3 x (num / den) := by
  have hlow : -((2 * greatestTen : Nat) : Int) ≤ power := by omega
  have hends := exists_endsNear negative hm hroom hlow hten
  rw [if_pos habove] at hends
  obtain ⟨num, den, hnum, hden, hscaled, hdrift⟩ := hends
  exact ⟨num, den, hnum, hden, hscaled, h.trans hdrift⟩

/-- What lies below `2 ^ 1024` by four units of the last place is read as some double. -/
theorem exists_scaled?_of_lt (negative : Bool) (hroom : m < 2 ^ 64)
    (h : Drift 1 x (m * 10 ^ power)) (hx : x < 2 ^ 1024 - 2 ^ 973) :
    ∃ f, scaled? negative m power = some f := by
  rcases Nat.eq_zero_or_pos m with rfl | hm
  · exact exists_scaled?_zero negative power
  rcases Int.lt_or_le power 0 with hneg | habove
  · exact exists_scaled?_of_neg negative hroom hneg
  by_cases hten : power ≤ greatestTen
  · obtain ⟨num, den, hnum, hden, hscaled, hdrift⟩ :=
      exists_scaled?_eq negative hm hroom habove hten h
    have hhigh : (num : ℚ) / den < overflow := by
      refine lt_of_mul_lt_mul_left ?_ (pow_pos kept_pos 3).le
      exact hdrift.high.trans_lt (hx.trans_le kept_overflow.1)
    obtain ⟨f, _, hf, _⟩ := exists_ofRatio? negative hnum hden hhigh
    exact ⟨f, hscaled.trans hf⟩
  · have hfar := lt_of_greatestTen_lt hm (not_le.mp hten)
    have hback := h.high
    have hrange : (0 : ℚ) < 2 ^ 1024 := by positivity
    have hmargin : (0 : ℚ) < 2 ^ 973 := by positivity
    rw [pow_one] at hback
    norm_num only [kept] at hback
    generalize (2 : ℚ) ^ 1024 = range at hx hfar hrange
    generalize (2 : ℚ) ^ 973 = margin at hx hmargin
    linarith

/-- A whole number in 64 bits is read as some double. -/
theorem exists_scaled?_whole (negative : Bool) (hroom : m < 2 ^ 64) :
    ∃ f, scaled? negative m 0 = some f := by
  have hfar : m + 2 ^ 973 < 2 ^ 1024 :=
    (Nat.add_lt_add_right hroom _).trans (by decide +kernel)
  have hbelow : (m : ℚ) < 2 ^ 1024 - 2 ^ 973 := by
    rw [lt_sub_iff_add_lt]
    exact_mod_cast hfar
  have hsame : Drift 1 (m : ℚ) (m * 10 ^ (0 : Int)) := by
    rw [zpow_zero, mul_one]
    exact (Drift.of_eq rfl).mono (Nat.zero_le 1) (Nat.cast_nonneg m) (Nat.cast_nonneg m)
  exact exists_scaled?_of_lt negative hroom hsame hbelow

/-- What lies above `2 ^ 1024` by four units of the last place or more is read as no double. -/
theorem scaled?_eq_none (negative : Bool) (hroom : m < 2 ^ 64)
    (h : Drift 1 x (m * 10 ^ power)) (hx : 2 ^ 1024 + 2 ^ 973 ≤ x) :
    scaled? negative m power = none := by
  have hpositive : 0 < x := lt_of_lt_of_le (by positivity) hx
  have hscaled := h.pos hpositive
  have hm : 0 < m := by
    rcases Nat.eq_zero_or_pos m with rfl | hm
    · rw [Nat.cast_zero, zero_mul] at hscaled
      exact absurd hscaled (lt_irrefl 0)
    · exact hm
  obtain ⟨f, hf, -, hwhole⟩ := exists_ofRatio?_whole negative hm (lt_overflow hroom)
  have hover : overflow ≤ kept ^ 3 * x :=
    kept_overflow.2.trans (mul_le_mul_of_nonneg_left hx (pow_pos kept_pos 3).le)
  rcases Int.lt_or_le power 0 with hneg | habove
  · have hdown : (10 : ℚ) ^ power ≤ 1 := zpow_le_one_of_nonpos₀ (by norm_num) hneg.le
    have hkept : kept ^ 3 ≤ kept ^ 1 := pow_le_pow_of_le_one kept_pos.le kept_le_one (by decide)
    have hfew : overflow ≤ m := calc
      overflow ≤ kept ^ 3 * x := hover
      _ ≤ kept ^ 1 * x := mul_le_mul_of_nonneg_right hkept hpositive.le
      _ ≤ m * 10 ^ power := h.low
      _ ≤ m := mul_le_of_le_one_right (Nat.cast_nonneg m) hdown
    exact absurd (lt_overflow hroom) (not_lt.mpr hfew)
  by_cases hten : power ≤ greatestTen
  · obtain ⟨num, den, hnum, hden, hlast, hdrift⟩ :=
      exists_scaled?_eq negative hm hroom habove hten h
    rw [hlast]
    exact ofRatio?_eq_none negative hnum hden (hover.trans hdrift.low)
  · have hnum := num_pos_of_magnitude (hwhole.pos (by exact_mod_cast hm))
    rw [scaled?_beyond hf (not_le.mp hten), isZero_of_num_pos hnum]
    rfl

end

end Binary64

end MetricUpload
