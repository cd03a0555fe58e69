import MetricUpload.Binary64.Scaling
import MetricUpload.Proofs.Binary64.Rounding

namespace MetricUpload

namespace Binary64

/-- What a rounding to 53 bits leaves of a number at the least. -/
def kept : ℚ := 1 - 1 / 2 ^ 53

theorem kept_pos : 0 < kept := by norm_num [kept]

theorem kept_le_one : kept ≤ 1 := by norm_num [kept]

/-- As far apart as `k` roundings take two numbers at the most. -/
structure Drift (k : Nat) (x y : ℚ) : Prop where
  low : kept ^ k * x ≤ y
  high : kept ^ k * y ≤ x

namespace Drift

variable {k l : Nat} {x y z : ℚ}

theorem of_eq (h : x = y) : Drift 0 x y := by
  subst h
  constructor <;> rw [pow_zero, one_mul]

theorem eq (h : Drift 0 x y) : x = y := by
  have hlow := h.low
  have hhigh := h.high
  rw [pow_zero, one_mul] at hlow hhigh
  exact le_antisymm hlow hhigh

theorem trans (h : Drift k x y) (h' : Drift l y z) : Drift (k + l) x z := by
  have hk : 0 ≤ kept ^ k := pow_nonneg kept_pos.le k
  have hl : 0 ≤ kept ^ l := pow_nonneg kept_pos.le l
  constructor
  · calc kept ^ (k + l) * x = kept ^ l * (kept ^ k * x) := by rw [pow_add]; ring
      _ ≤ kept ^ l * y := mul_le_mul_of_nonneg_left h.low hl
      _ ≤ z := h'.low
  · calc kept ^ (k + l) * z = kept ^ k * (kept ^ l * z) := by rw [pow_add]; ring
      _ ≤ kept ^ k * y := mul_le_mul_of_nonneg_left h'.high hk
      _ ≤ x := h.high

theorem pos (h : Drift k x y) (hx : 0 < x) : 0 < y :=
  lt_of_lt_of_le (mul_pos (pow_pos kept_pos k) hx) h.low

theorem mono (h : Drift k x y) (hkl : k ≤ l) (hx : 0 ≤ x) (hy : 0 ≤ y) : Drift l x y := by
  have hpower : kept ^ l ≤ kept ^ k := pow_le_pow_of_le_one kept_pos.le kept_le_one hkl
  exact ⟨(mul_le_mul_of_nonneg_right hpower hx).trans h.low,
    (mul_le_mul_of_nonneg_right hpower hy).trans h.high⟩

theorem mul {x' y' : ℚ} (h : Drift k x y) (h' : Drift l x' y') (hx : 0 < x) (hx' : 0 < x') :
    Drift (k + l) (x * x') (y * y') := by
  have hk : 0 < kept ^ k := pow_pos kept_pos k
  have hl : 0 < kept ^ l := pow_pos kept_pos l
  have hy := h.pos hx
  have hy' := h'.pos hx'
  constructor
  · calc kept ^ (k + l) * (x * x') = (kept ^ k * x) * (kept ^ l * x') := by rw [pow_add]; ring
      _ ≤ y * y' := mul_le_mul h.low h'.low (mul_pos hl hx').le hy.le
  · calc kept ^ (k + l) * (y * y') = (kept ^ k * y) * (kept ^ l * y') := by rw [pow_add]; ring
      _ ≤ x * x' := mul_le_mul h.high h'.high (mul_pos hl hy').le hx.le

theorem inv (h : Drift k x y) (hx : 0 < x) : Drift k x⁻¹ y⁻¹ := by
  have hy := h.pos hx
  constructor
  · rw [← div_eq_mul_inv, div_le_iff₀ hx, ← div_eq_inv_mul, le_div_iff₀ hy]
    exact h.high
  · rw [← div_eq_mul_inv, div_le_iff₀ hy, ← div_eq_inv_mul, le_div_iff₀ hx]
    exact h.low

theorem div {x' y' : ℚ} (h : Drift k x y) (h' : Drift l x' y') (hx : 0 < x) (hx' : 0 < x') :
    Drift (k + l) (x / x') (y / y') := by
  rw [div_eq_mul_inv, div_eq_mul_inv]
  exact h.mul (h'.inv hx') hx (inv_pos.mpr hx')

theorem of_near (hx : 0 ≤ x) (h : |y - x| ≤ x / 2 ^ 53) : Drift 1 x y := by
  obtain ⟨hlow, hhigh⟩ := abs_le.mp h
  constructor
  · norm_num [kept] at hlow ⊢
    linarith
  · norm_num [kept] at hhigh ⊢
    linarith

/-- A rounding below full precision counts for several. -/
theorem of_near_three (hx : 0 ≤ x) (h : |y - x| ≤ 5 / 2 * (x / 2 ^ 53)) : Drift 3 x y := by
  obtain ⟨hlow, hhigh⟩ := abs_le.mp h
  constructor
  · norm_num [kept] at hlow ⊢
    linarith
  · norm_num [kept] at hhigh ⊢
    linarith

end Drift

/-- A unit of the last place is a small part of a number that has full precision. -/
theorem Fitting.unit_le {x : ℚ} {e : Int} (he : Fitting x e) (hx : 2 ^ (-1022 : Int) ≤ x) :
    2 ^ e ≤ x / 2 ^ 52 := by
  have hfull : (2 : ℚ) ^ (e + 52) ≤ x := by
    rcases he.full with rfl | hfull
    · exact hx
    · exact hfull
  rw [le_div_iff₀ (by norm_num)]
  calc (2 : ℚ) ^ e * 2 ^ 52 = 2 ^ (e + 52) := by rw [zpow_add₀ (by norm_num)]; norm_num
    _ ≤ x := hfull

section

variable {num den : Nat}

theorem exists_ofRatio?_drift (negative : Bool) (hnum : 0 < num) (hden : 0 < den)
    (hlow : 2 ^ (-1022 : Int) ≤ (num : ℚ) / den) (hhigh : (num : ℚ) / den < overflow) :
    ∃ f, ofRatio? negative num den = some f ∧ f.negative = negative ∧
      Drift 1 (num / den) f.magnitude := by
  obtain ⟨f, e, hf, hsign, he, herror⟩ := exists_ofRatio? negative hnum hden hhigh
  have hunit := he.unit_le hlow
  have hnear : |f.magnitude - num / den| ≤ (num : ℚ) / den / 2 ^ 53 := by
    have hhalf : (num : ℚ) / den / 2 ^ 53 = num / den / 2 ^ 52 / 2 := by ring
    rw [hhalf]
    linarith
  exact ⟨f, hf, hsign, .of_near (by positivity) hnear⟩

/-- Just below the range of full precision. -/
theorem exists_ofRatio?_drift_three (negative : Bool) (hnum : 0 < num) (hden : 0 < den)
    (hlow : 2 / 5 * 2 ^ (-1022 : Int) ≤ (num : ℚ) / den) (hhigh : (num : ℚ) / den < overflow) :
    ∃ f, ofRatio? negative num den = some f ∧ f.negative = negative ∧
      Drift 3 (num / den) f.magnitude := by
  obtain ⟨f, e, hf, hsign, he, herror⟩ := exists_ofRatio? negative hnum hden hhigh
  refine ⟨f, hf, hsign, .of_near_three (by positivity) ?_⟩
  have hunit : (2 : ℚ) ^ e ≤ 5 / 2 * (num / den / 2 ^ 52) := by
    rcases he.full with rfl | hfull
    · have hleast : (2 : ℚ) ^ (-1022 : Int) = 2 ^ (-1074 : Int) * 2 ^ 52 := by
        rw [show (-1022 : Int) = -1074 + 52 by norm_num, zpow_add₀ (by norm_num)]
        norm_num
      rw [hleast] at hlow
      linarith
    · have hsplit : (2 : ℚ) ^ (e + 52) = 2 ^ e * 2 ^ 52 := by
        rw [zpow_add₀ (by norm_num)]
        norm_num
      rw [hsplit] at hfull
      have hunit := two_zpow_pos e
      linarith
  have hhalf : 5 / 2 * ((num : ℚ) / den / 2 ^ 53) = 5 / 2 * (num / den / 2 ^ 52) / 2 := by ring
  rw [hhalf]
  linarith

end

end Binary64

end MetricUpload
