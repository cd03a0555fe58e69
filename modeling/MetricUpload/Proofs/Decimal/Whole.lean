import MetricUpload.Decimal

namespace MetricUpload

namespace Binary64

theorem roundedQuotient_mul {k den : Nat} (hden : 0 < den) : roundedQuotient (k * den) den = k := by
  have hrest : 2 * (k * den % den) < den := by
    rw [Nat.mul_mod_left]
    omega
  simp only [roundedQuotient, hrest, ↓reduceIte, Nat.mul_div_cancel k hden]

theorem inUnits_lowered (num den shift : Nat) :
    inUnits num den (-(shift : Int)) = (num * Nat.pow 2 shift, den) := by
  have hup : (-(-(shift : Int))).toNat = shift := by omega
  have hdown : (-(shift : Int)).toNat = 0 := by omega
  simp only [inUnits, hup, hdown, Nat.pow_eq, Nat.pow_zero, Nat.mul_one]

/-- The quotient of two numbers lies within a factor of two of the power of two that their lengths
tell. -/
theorem log2_quotient {k den : Nat} (hk : 0 < k) (hden : 0 < den) :
    ∃ length, (k * den).log2 = den.log2 + length ∧ Nat.pow 2 length < 2 * k ∧
      k < Nat.pow 2 (length + 1) := by
  simp only [Nat.pow_eq]
  have hnum : 0 < k * den := Nat.mul_pos hk hden
  have hden_low : 2 ^ den.log2 ≤ den := Nat.log2_self_le (by omega)
  have hden_high : den < 2 ^ (den.log2 + 1) := Nat.lt_log2_self
  have hnum_low : 2 ^ (k * den).log2 ≤ k * den := Nat.log2_self_le (by omega)
  have hnum_high : k * den < 2 ^ ((k * den).log2 + 1) := Nat.lt_log2_self
  have hle : den.log2 ≤ (k * den).log2 :=
    (Nat.le_log2 (by omega)).mpr (Nat.le_trans hden_low (Nat.le_mul_of_pos_left den hk))
  obtain ⟨length, hlength⟩ := Nat.exists_eq_add_of_le hle
  have hpos : 0 < 2 ^ den.log2 := Nat.two_pow_pos _
  refine ⟨length, hlength, ?_, ?_⟩
  · apply Nat.lt_of_mul_lt_mul_right (a := 2 ^ den.log2)
    calc 2 ^ length * 2 ^ den.log2 = 2 ^ (k * den).log2 := by rw [hlength, Nat.pow_add, Nat.mul_comm]
      _ ≤ k * den := hnum_low
      _ < k * 2 ^ (den.log2 + 1) := Nat.mul_lt_mul_of_pos_left hden_high hk
      _ = 2 * k * 2 ^ den.log2 := by rw [Nat.pow_succ, Nat.mul_comm 2 k, Nat.mul_assoc,
          Nat.mul_comm 2]
  · apply Nat.lt_of_mul_lt_mul_right (a := 2 ^ den.log2)
    calc k * 2 ^ den.log2 ≤ k * den := Nat.mul_le_mul_left k hden_low
      _ < 2 ^ ((k * den).log2 + 1) := hnum_high
      _ = 2 ^ (length + 1) * 2 ^ den.log2 := by
          rw [hlength, Nat.add_assoc, Nat.pow_add, Nat.mul_comm]

/-- A whole number below `2 ^ 53` is counted in units of at most one, and has room there. -/
theorem fittingExponent_whole {k den : Nat} (hk : 0 < k) (hlimit : k < limit) (hden : 0 < den) :
    ∃ shift : Nat, fittingExponent (k * den) den = -(shift : Int) ∧ shift ≤ 53 ∧
      half ≤ k * Nat.pow 2 shift ∧ k * Nat.pow 2 shift < limit := by
  obtain ⟨length, hlength, hlow, hhigh⟩ := log2_quotient hk hden
  rw [Nat.pow_eq] at hlow hhigh
  have hlimit' : limit = 2 ^ 53 := rfl
  have hhalf : half = 2 ^ 52 := rfl
  have hshort : length ≤ 53 := by
    have hless : 2 ^ length < 2 ^ 54 := by omega
    have := (Nat.pow_lt_pow_iff_right (by decide)).mp hless
    omega
  have hexponent : ((k * den).log2 : Int) - den.log2 - 53 = -((53 - length : Nat) : Int) := by
    omega
  have hquotient : k * den * Nat.pow 2 (53 - length) / den = k * Nat.pow 2 (53 - length) := by
    rw [Nat.mul_right_comm, Nat.mul_div_cancel _ hden]
  -- In the units tried first the number is at least `2 ^ 52` and less than `2 ^ 54`.
  have hsplit : 2 ^ length * 2 ^ (53 - length) = limit := by
    rw [← Nat.pow_add, hlimit', Nat.add_sub_of_le hshort]
  have hmin : limit < 2 * (k * 2 ^ (53 - length)) := by
    rw [← hsplit, ← Nat.mul_assoc]
    exact Nat.mul_lt_mul_of_pos_right hlow (Nat.two_pow_pos _)
  have hmax : k * 2 ^ (53 - length) < 2 * limit := by
    rw [← hsplit, ← Nat.mul_assoc, Nat.mul_comm 2, ← Nat.pow_succ]
    exact Nat.mul_lt_mul_of_pos_right hhigh (Nat.two_pow_pos _)
  have hunits : ∀ n : Nat, Nat.pow 2 n = 2 ^ n := fun _ => rfl
  by_cases hroom : k * Nat.pow 2 (53 - length) < limit
  · refine ⟨53 - length, ?_, by omega, ?_, hroom⟩
    · simp only [fittingExponent, hexponent, inUnits_lowered, hquotient, hroom, ↓reduceIte]
      omega
    · rw [hunits]
      omega
  · have hshorter : length ≤ 52 := by
      refine Nat.le_of_not_lt fun h => hroom ?_
      obtain rfl : length = 53 := by omega
      simpa [hunits] using hlimit
    have hdouble : k * 2 ^ (53 - length) = 2 * (k * 2 ^ (52 - length)) := by
      rw [show 53 - length = 52 - length + 1 by omega, Nat.pow_succ, ← Nat.mul_assoc, Nat.mul_comm]
    refine ⟨52 - length, ?_, by omega, ?_, ?_⟩
    · simp only [fittingExponent, hexponent, inUnits_lowered, hquotient, hroom, ↓reduceIte]
      omega
    · rw [hunits] at hroom ⊢
      omega
    · rw [hunits]
      omega

theorem den_pos (f : Binary64) : 0 < f.den := Nat.two_pow_pos _

/-- A whole number below `2 ^ 53` is its own nearest double. -/
theorem ofRatio?_whole (negative : Bool) {k den : Nat} (hk : 0 < k) (hlimit : k < limit)
    (hden : 0 < den) :
    ∃ f, ofRatio? negative (k * den) den = some f ∧ f.negative = negative ∧ f.num = k * f.den := by
  obtain ⟨shift, hexponent, hshift, hlow, hhigh⟩ := fittingExponent_whole hk hlimit hden
  have hpositive : ¬k * den = 0 := by
    have := Nat.mul_pos hk hden
    omega
  have hrounded : roundedQuotient (k * den * Nat.pow 2 shift) den = k * Nat.pow 2 shift := by
    rw [Nat.mul_right_comm, roundedQuotient_mul hden]
  have hcarried : ¬k * Nat.pow 2 shift = limit := by omega
  have hcanonical : Canonical (k * Nat.pow 2 shift) (-(shift : Int)) :=
    ⟨hhigh, by omega, by omega, .inl hlow⟩
  refine ⟨⟨negative, _, _, hcanonical⟩, ?_, rfl, ?_⟩
  · simp only [ofRatio?, hpositive, ↓reduceIte, hexponent, inUnits_lowered, hrounded, hcarried,
      ofParts?, hcanonical, ↓reduceDIte]
  · have hup : (-(-(shift : Int))).toNat = shift := by omega
    have hdown : (-(shift : Int)).toNat = 0 := by omega
    simp only [Binary64.num, Binary64.den, hup, hdown, Nat.pow_eq, Nat.pow_zero, Nat.mul_one]

theorem toInt?_of_num {f : Binary64} {k : Nat} (h : f.num = k * f.den) :
    f.toInt? = some (if f.negative then -(k : Int) else k) := by
  simp only [toInt?, h, Nat.mul_mod_left, ↓reduceIte]
  rw [Int.natCast_mul, Int.mul_ediv_cancel _ (by have := f.den_pos; omega)]

end Binary64

namespace Decimal

def signed (d : Decimal) : Int := if d.negative then -(d.significand : Int) else d.significand

/-- The numeral is one of the whole number `n`: both sides are counted in units of the same power
of ten. -/
def Denotes (d : Decimal) (n : Int) : Prop :=
  n * (Nat.pow 10 (-d.power).toNat : Int) = d.signed * (Nat.pow 10 d.power.toNat : Int)

section

variable {d : Decimal} {n : Int}

theorem Denotes.unique {m : Int} (hm : d.Denotes m) (hn : d.Denotes n) : m = n := by
  have hunit : (Nat.pow 10 (-d.power).toNat : Int) ≠ 0 :=
    Int.natCast_ne_zero.mpr (Nat.ne_of_gt (Nat.pow_pos (by decide)))
  exact Int.eq_of_mul_eq_mul_right hunit (Eq.trans hm hn.symm)

theorem Denotes.natAbs (h : d.Denotes n) :
    n.natAbs * Nat.pow 10 (-d.power).toNat = d.significand * Nat.pow 10 d.power.toNat := by
  have hsigned : d.signed.natAbs = d.significand := by
    unfold signed
    split <;> omega
  have habs := congrArg Int.natAbs h
  rwa [Int.natAbs_mul, Int.natAbs_mul, Int.natAbs_natCast, Int.natAbs_natCast, hsigned] at habs

theorem Denotes.sign (h : d.Denotes n) :
    (if d.negative then -(n.natAbs : Int) else n.natAbs) = n := by
  refine Denotes.unique (d := d) ?_ h
  unfold Denotes
  have hmagnitude : (n.natAbs : Int) * (Nat.pow 10 (-d.power).toNat : Int) =
      d.significand * (Nat.pow 10 d.power.toNat : Int) := by
    exact_mod_cast h.natAbs
  cases hs : d.negative with
  | true => simp only [signed, hs, ↓reduceIte, Int.neg_mul, hmagnitude]
  | false => simp only [signed, hs, Bool.false_eq_true, ↓reduceIte, hmagnitude]

/-- A whole number of less than 53 bits begins close to the point. -/
theorem top_of_whole {k : Nat} (hk : 0 < k) (hlimit : k < Binary64.limit)
    (h : k * Nat.pow 10 (-d.power).toNat = d.significand * Nat.pow 10 d.power.toNat) :
    0 < d.power + (Nat.toDigits 10 d.significand).length ∧
      d.power + (Nat.toDigits 10 d.significand).length ≤ 16 := by
  have hlength : 0 < (Nat.toDigits 10 d.significand).length := Nat.length_toDigits_pos
  generalize hl : (Nat.toDigits 10 d.significand).length = length at *
  have hshort : k < 10 ^ 16 := Nat.lt_trans hlimit (by decide)
  have hhigh : d.significand < 10 ^ length :=
    (Nat.length_toDigits_le_iff (by decide) hlength).mp (Nat.le_of_eq hl)
  simp only [Nat.pow_eq] at h
  constructor
  · have hless : 10 ^ (-d.power).toNat < 10 ^ (length + d.power.toNat) := by
      calc 10 ^ (-d.power).toNat ≤ k * 10 ^ (-d.power).toNat := Nat.le_mul_of_pos_left _ hk
        _ = d.significand * 10 ^ d.power.toNat := h
        _ < 10 ^ length * 10 ^ d.power.toNat :=
          Nat.mul_lt_mul_of_pos_right hhigh (Nat.pow_pos (by decide))
        _ = 10 ^ (length + d.power.toNat) := (Nat.pow_add ..).symm
    have := (Nat.pow_lt_pow_iff_right (by decide)).mp hless
    omega
  · have hlow : 10 ^ (length - 1) ≤ d.significand := by
      refine Nat.le_of_not_lt fun hless => ?_
      by_cases hone : length = 1
      · have hpositive : 0 < d.significand * 10 ^ d.power.toNat := by
          rw [← h]
          exact Nat.mul_pos hk (Nat.pow_pos (by decide))
        obtain rfl : length = 1 := hone
        have := Nat.pos_of_mul_pos_right hpositive
        omega
      · have := (Nat.length_toDigits_le_iff (by decide) (by omega)).mpr hless
        omega
    have hless : 10 ^ (length - 1 + d.power.toNat) < 10 ^ (16 + (-d.power).toNat) := by
      calc 10 ^ (length - 1 + d.power.toNat) = 10 ^ (length - 1) * 10 ^ d.power.toNat :=
            Nat.pow_add ..
        _ ≤ d.significand * 10 ^ d.power.toNat := Nat.mul_le_mul_right _ hlow
        _ = k * 10 ^ (-d.power).toNat := h.symm
        _ < 10 ^ 16 * 10 ^ (-d.power).toNat :=
          Nat.mul_lt_mul_of_pos_right hshort (Nat.pow_pos (by decide))
        _ = 10 ^ (16 + (-d.power).toNat) := (Nat.pow_add ..).symm
    have := (Nat.pow_lt_pow_iff_right (by decide)).mp hless
    omega

/-- A whole number of less than 53 bits is far from both ends of the range, and its own nearest
double. -/
theorem exists_nearest {k : Nat} (hlimit : k < Binary64.limit)
    (h : k * Nat.pow 10 (-d.power).toNat = d.significand * Nat.pow 10 d.power.toNat) :
    ∃ f, d.toBinary64? = some f ∧ f.negative = d.negative ∧ f.num = k * f.den := by
  have hunit : 0 < Nat.pow 10 (-d.power).toNat := Nat.pow_pos (by decide)
  have hpower : 0 < Nat.pow 10 d.power.toNat := Nat.pow_pos (by decide)
  by_cases hzero : d.significand = 0
  · have hnone : k = 0 := by
      rw [hzero, Nat.zero_mul] at h
      exact (Nat.mul_eq_zero.mp h).resolve_right (by omega)
    refine ⟨.zero d.negative, by simp only [toBinary64?, hzero, true_or, ↓reduceIte], rfl, ?_⟩
    rw [hnone, Nat.zero_mul]
    exact Nat.zero_mul _
  · have hk : 0 < k := by
      refine Nat.pos_of_ne_zero fun hnone => ?_
      rw [hnone, Nat.zero_mul] at h
      have := Nat.mul_eq_zero.mp h.symm
      omega
    obtain ⟨hlow, hhigh⟩ := top_of_whole hk hlimit h
    have hseen : ¬(d.significand = 0 ∨
        d.power + ((Nat.toDigits 10 d.significand).length : Int) < -330) := by omega
    have hbounded : ¬310 < d.power + ((Nat.toDigits 10 d.significand).length : Int) := by omega
    by_cases hup : 0 ≤ d.power
    · have hratio : d.significand * Nat.pow 10 d.power.toNat = k * 1 := by
        rw [← h, show (-d.power).toNat = 0 by omega, Nat.pow_eq, Nat.pow_zero]
      obtain ⟨f, hf, hparts⟩ := Binary64.ofRatio?_whole d.negative hk hlimit Nat.one_pos
      refine ⟨f, ?_, hparts⟩
      simp only [toBinary64?, hseen, hbounded, hup, ↓reduceIte, hratio, hf]
    · have hratio : d.significand = k * Nat.pow 10 (-d.power).toNat := by
        rw [h, show d.power.toNat = 0 by omega]
        exact (Nat.mul_one _).symm
      obtain ⟨f, hf, hparts⟩ := Binary64.ofRatio?_whole d.negative hk hlimit hunit
      rw [← hratio] at hf
      refine ⟨f, ?_, hparts⟩
      simp only [toBinary64?, hseen, hbounded, hup, ↓reduceIte, hf]

/-- A whole number of less than 53 bits survives the way through the nearest double. -/
theorem toInt?_of_denotes (h : d.Denotes n) (hlimit : n.natAbs < Binary64.limit) :
    d.toInt? = some n := by
  obtain ⟨f, hf, hsign, hnum⟩ := exists_nearest hlimit h.natAbs
  rw [toInt?, hf, Option.bind_some, Binary64.toInt?_of_num hnum, hsign, h.sign]

end

end Decimal

end MetricUpload
