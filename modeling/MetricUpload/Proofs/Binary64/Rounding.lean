import Mathlib.Algebra.Order.Field.Power
import Mathlib.Data.Rat.Floor
import Mathlib.Tactic.FieldSimp
import Mathlib.Tactic.GCongr
import Mathlib.Tactic.Linarith
import Mathlib.Tactic.Positivity
import Mathlib.Tactic.Ring
import MetricUpload.Binary64

namespace MetricUpload

namespace Binary64

/-- The value without the sign. -/
def magnitude (f : Binary64) : ℚ := f.significand * 2 ^ f.exponent

theorem two_zpow_pos (e : Int) : (0 : ℚ) < 2 ^ e := zpow_pos (by norm_num) e

theorem zpow_toNat {b : ℚ} (hb : b ≠ 0) (e : Int) : b ^ e = b ^ e.toNat / b ^ (-e).toNat := by
  rw [div_eq_mul_inv, ← zpow_natCast, ← zpow_natCast, ← zpow_neg, ← zpow_add₀ hb]
  congr 1
  omega

theorem magnitude_eq (f : Binary64) : f.magnitude = f.num / f.den := by
  rw [magnitude, zpow_toNat (by norm_num), num, den]
  push_cast [Nat.pow_eq]
  ring

theorem inUnits_pos (num : Nat) {den : Nat} (hden : 0 < den) (e : Int) :
    0 < (inUnits num den e).2 :=
  Nat.mul_pos hden (Nat.two_pow_pos _)

theorem inUnits_ratio (num : Nat) {den : Nat} (hden : 0 < den) (e : Int) :
    ((inUnits num den e).1 : ℚ) / (inUnits num den e).2 = num / den / 2 ^ e := by
  have hd : (den : ℚ) ≠ 0 := by positivity
  rw [zpow_toNat (by norm_num), inUnits]
  push_cast [Nat.pow_eq]
  field_simp

/-- At this exponent a number has a whole part of 53 bits, or fewer when it is the least exponent. -/
structure Fitting (x : ℚ) (e : Int) : Prop where
  below : x < 2 ^ (e + 53)
  least : -1074 ≤ e
  full : e = -1074 ∨ 2 ^ (e + 52) ≤ x

theorem Fitting.unique {x : ℚ} {e e' : Int} (h : Fitting x e) (h' : Fitting x e') : e = e' := by
  have hone : ∀ {a b : Int}, Fitting x a → Fitting x b → a ≤ b := by
    intro a b ha hb
    rcases ha.full with hleast | hfull
    · have := hb.least
      omega
    · have hpower := (zpow_lt_zpow_iff_right₀ (by norm_num : (1 : ℚ) < 2)).mp
        (lt_of_le_of_lt hfull hb.below)
      omega
  exact le_antisymm (hone h h') (hone h' h)

theorem log2_bounds {n : Nat} (h : 0 < n) :
    (2 : ℚ) ^ (n.log2 : Int) ≤ n ∧ (n : ℚ) < 2 ^ ((n.log2 : Int) + 1) := by
  have hlow : 2 ^ n.log2 ≤ n := Nat.log2_self_le (by omega)
  have hhigh : n < 2 ^ (n.log2 + 1) := Nat.lt_log2_self
  constructor
  · rw [zpow_natCast]
    exact_mod_cast hlow
  · rw [← Nat.cast_succ, zpow_natCast]
    exact_mod_cast hhigh

/-- The lengths of two numbers tell their quotient up to a factor of two. -/
theorem quotient_bounds {num den : Nat} (hnum : 0 < num) (hden : 0 < den) :
    (2 : ℚ) ^ ((num.log2 : Int) - den.log2 - 1) < num / den ∧
      (num : ℚ) / den < 2 ^ ((num.log2 : Int) - den.log2 + 1) := by
  obtain ⟨hnlow, hnhigh⟩ := log2_bounds hnum
  obtain ⟨hdlow, hdhigh⟩ := log2_bounds hden
  have hd : (0 : ℚ) < den := by positivity
  constructor
  · rw [lt_div_iff₀ hd]
    calc (2 : ℚ) ^ ((num.log2 : Int) - den.log2 - 1) * den
        < 2 ^ ((num.log2 : Int) - den.log2 - 1) * 2 ^ ((den.log2 : Int) + 1) := by gcongr
      _ = 2 ^ (num.log2 : Int) := by
        rw [← zpow_add₀ (by norm_num)]
        congr 1
        ring
      _ ≤ num := hnlow
  · rw [div_lt_iff₀ hd]
    calc (num : ℚ) < 2 ^ ((num.log2 : Int) + 1) := hnhigh
      _ = 2 ^ ((num.log2 : Int) - den.log2 + 1) * 2 ^ (den.log2 : Int) := by
        rw [← zpow_add₀ (by norm_num)]
        congr 1
        ring
      _ ≤ 2 ^ ((num.log2 : Int) - den.log2 + 1) * den := by gcongr

theorem limit_eq : (limit : ℚ) = 2 ^ (53 : Int) := by norm_num [limit]

theorem half_eq : (half : ℚ) = 2 ^ (52 : Int) := by norm_num [half]

/-- Whether the whole part has room in 53 bits. -/
theorem inUnits_lt_limit_iff {num den : Nat} (hden : 0 < den) (e : Int) :
    (inUnits num den e).1 / (inUnits num den e).2 < limit ↔ (num : ℚ) / den < 2 ^ (e + 53) := by
  have hunit : (0 : ℚ) < (inUnits num den e).2 := by exact_mod_cast inUnits_pos num hden e
  have hcast : (inUnits num den e).1 < limit * (inUnits num den e).2 ↔
      ((inUnits num den e).1 : ℚ) / (inUnits num den e).2 < limit := by
    rw [div_lt_iff₀ hunit]
    exact_mod_cast Iff.rfl
  rw [Nat.div_lt_iff_lt_mul (inUnits_pos num hden e), hcast, inUnits_ratio num hden,
    div_lt_iff₀ (two_zpow_pos e), limit_eq, ← zpow_add₀ (by norm_num), add_comm]

theorem fitting_fittingExponent {num den : Nat} (hnum : 0 < num) (hden : 0 < den) :
    Fitting (num / den) (fittingExponent num den) := by
  obtain ⟨hlow, hhigh⟩ := quotient_bounds hnum hden
  generalize hstart : (num.log2 : Int) - den.log2 - 53 = start
  have hfrom : (num.log2 : Int) - den.log2 - 1 = start + 52 := by omega
  have hto : (num.log2 : Int) - den.log2 + 1 = start + 1 + 53 := by omega
  rw [hfrom] at hlow
  rw [hto] at hhigh
  have htried : ∃ e, (num : ℚ) / den < 2 ^ (e + 53) ∧ 2 ^ (e + 52) ≤ (num : ℚ) / den ∧
      fittingExponent num den = if e < -1074 then -1074 else e := by
    by_cases hroom : (inUnits num den start).1 / (inUnits num den start).2 < limit
    · refine ⟨start, (inUnits_lt_limit_iff hden start).mp hroom, hlow.le, ?_⟩
      simp only [fittingExponent, hstart, hroom, ↓reduceIte]
    · have hfull := (inUnits_lt_limit_iff hden start).not.mp hroom
      have hnext : start + 1 + 52 = start + 53 := by ring
      refine ⟨start + 1, hhigh, by rw [hnext]; exact not_lt.mp hfull, ?_⟩
      simp only [fittingExponent, hstart, hroom, ↓reduceIte]
  obtain ⟨e, hbelow, hfull, he⟩ := htried
  rw [he]
  split
  next hsmall =>
    refine ⟨hbelow.trans_le ?_, le_rfl, .inl rfl⟩
    exact zpow_le_zpow_right₀ (by norm_num) (by omega)
  next hlarge => exact ⟨hbelow, by omega, .inr hfull⟩

/-- The quotient as a whole part and a rest below one. -/
theorem quotient_split (num : Nat) {den : Nat} (hden : 0 < den) :
    (num : ℚ) / den = (num / den : Nat) + (num % den : Nat) / den := by
  have hd : (den : ℚ) ≠ 0 := by positivity
  have hsum : (num : ℚ) = den * (num / den : Nat) + (num % den : Nat) := by
    exact_mod_cast (Nat.div_add_mod num den).symm
  field_simp
  exact hsum

/-- The whole number nearest to a number, or the even one of two that are equally near. -/
def NearestEven (k : Nat) (x : ℚ) : Prop := |(k : ℚ) - x| < 1 / 2 ∨ |(k : ℚ) - x| = 1 / 2 ∧ k % 2 = 0

theorem NearestEven.near {k : Nat} {x : ℚ} (h : NearestEven k x) : |(k : ℚ) - x| ≤ 1 / 2 := by
  rcases h with h | h
  · exact h.le
  · exact h.1.le

theorem NearestEven.unique {k l : Nat} {x : ℚ} (hk : NearestEven k x) (hl : NearestEven l x) :
    k = l := by
  have hle : ∀ {a b : Nat}, NearestEven a x → NearestEven b x → a ≤ b := by
    intro a b ha hb
    by_contra hless
    obtain ⟨halow, hahigh⟩ := abs_le.mp ha.near
    obtain ⟨hblow, hbhigh⟩ := abs_le.mp hb.near
    have hstep : (b : ℚ) + 1 ≤ a := by exact_mod_cast not_le.mp hless
    -- Both are half a unit away, so both are even and yet next to each other.
    have ha' : (a : ℚ) - x = 1 / 2 := by linarith
    have hb' : (b : ℚ) - x = -(1 / 2) := by linarith
    have hnext : a = b + 1 := by
      have hcast : (a : ℚ) = b + 1 := by linarith
      exact_mod_cast hcast
    have haeven : a % 2 = 0 := by
      rcases ha with h | h
      · rw [ha', abs_of_pos (by norm_num)] at h
        exact absurd h (lt_irrefl _)
      · exact h.2
    have hbeven : b % 2 = 0 := by
      rcases hb with h | h
      · rw [hb', abs_neg, abs_of_pos (by norm_num)] at h
        exact absurd h (lt_irrefl _)
      · exact h.2
    omega
  exact le_antisymm (hle hk hl) (hle hl hk)

theorem nearestEven_roundedQuotient (num : Nat) {den : Nat} (hden : 0 < den) :
    NearestEven (roundedQuotient num den) (num / den) := by
  have hd : (0 : ℚ) < den := by positivity
  have hsplit := quotient_split num hden
  have hnonneg : (0 : ℚ) ≤ (num % den : Nat) / den := by positivity
  have hless : ((num % den : Nat) : ℚ) / den < 1 := by
    rw [div_lt_one hd]
    exact_mod_cast Nat.mod_lt num hden
  unfold NearestEven roundedQuotient
  dsimp only
  split
  next hdown =>
    have hsmall : ((num % den : Nat) : ℚ) / den < 1 / 2 := by
      have hcast : (2 : ℚ) * (num % den : Nat) < den := by exact_mod_cast hdown
      rw [div_lt_iff₀ hd]
      linarith
    left
    rw [hsplit, abs_lt]
    constructor <;> linarith
  next hdown =>
    split
    next hup =>
      have hlarge : 1 / 2 < ((num % den : Nat) : ℚ) / den := by
        have hcast : (den : ℚ) < 2 * (num % den : Nat) := by exact_mod_cast hup
        rw [lt_div_iff₀ hd]
        linarith
      left
      push_cast
      rw [hsplit, abs_lt]
      constructor <;> linarith
    next hup =>
      have hhalf : ((num % den : Nat) : ℚ) / den = 1 / 2 := by
        have heq : 2 * (num % den) = den := by omega
        have hcast : (2 : ℚ) * (num % den : Nat) = den := by exact_mod_cast heq
        rw [div_eq_iff hd.ne']
        linarith
      refine .inr ⟨?_, by omega⟩
      rw [hsplit, hhalf]
      rcases Nat.mod_two_eq_zero_or_one (num / den) with heven | hodd
      · rw [heven]
        norm_num
      · rw [hodd]
        push_cast
        norm_num

section

variable {num den k : Nat} {e : Int}

/-- Rounding by the exponent that fits and the whole number that is nearest. -/
theorem ofRatio?_of_fitting (negative : Bool) (hnum : 0 < num) (hden : 0 < den)
    (he : Fitting (num / den) e) (hk : NearestEven k (num / den / 2 ^ e)) :
    ofRatio? negative num den =
      if k = limit then ofParts? negative half (e + 1) else ofParts? negative k e := by
  obtain rfl := (fitting_fittingExponent hnum hden).unique he
  have hrounded := nearestEven_roundedQuotient (inUnits num den (fittingExponent num den)).1
    (inUnits_pos num hden (fittingExponent num den))
  rw [inUnits_ratio num hden] at hrounded
  obtain rfl := hrounded.unique hk
  have hpositive : ¬num = 0 := by omega
  simp only [ofRatio?, hpositive, ↓reduceIte]

theorem NearestEven.le_limit {x : ℚ} (he : Fitting x e) (hk : NearestEven k (x / 2 ^ e)) :
    k ≤ limit := by
  obtain ⟨-, hhigh⟩ := abs_le.mp hk.near
  have hunits : x / 2 ^ e < limit := by
    rw [div_lt_iff₀ (two_zpow_pos e), limit_eq, ← zpow_add₀ (by norm_num), add_comm]
    exact he.below
  have hcast : (k : ℚ) < limit + 1 := by linarith
  have hless : k < limit + 1 := by exact_mod_cast hcast
  omega

theorem NearestEven.half_le {x : ℚ} (he : 2 ^ (e + 52) ≤ x) (hk : NearestEven k (x / 2 ^ e)) :
    half ≤ k := by
  obtain ⟨hlow, -⟩ := abs_le.mp hk.near
  have hunits : (half : ℚ) ≤ x / 2 ^ e := by
    rw [le_div_iff₀ (two_zpow_pos e), half_eq, ← zpow_add₀ (by norm_num), add_comm]
    exact he
  have hcast : (half : ℚ) < k + 1 := by linarith
  have hless : half < k + 1 := by exact_mod_cast hcast
  omega

/-- Halfway between the greatest double and the power of two behind it: what is smaller is not rounded
out of the finite range. -/
def overflow : ℚ := (limit - 1 / 2) * 2 ^ (971 : Int)

theorem Fitting.exponent_le {x : ℚ} (he : Fitting x e) (hx : x < overflow) : e ≤ 971 := by
  by_contra hlarge
  have hfull : (2 : ℚ) ^ (e + 52) ≤ x := he.full.resolve_left (by omega)
  have hpower : (2 : ℚ) ^ (53 + 971 : Int) ≤ 2 ^ (e + 52) :=
    zpow_le_zpow_right₀ (by norm_num) (by omega)
  rw [zpow_add₀ (by norm_num), ← limit_eq] at hpower
  have hunit := two_zpow_pos 971
  rw [overflow, sub_mul] at hx
  generalize (2 : ℚ) ^ (971 : Int) = unit at hpower hunit hx
  linarith

theorem NearestEven.exponent_le {x : ℚ} (hk : NearestEven k (x / 2 ^ e)) (hcarry : k = limit)
    (hx : x < overflow) : e ≤ 970 := by
  by_contra hlarge
  obtain ⟨-, hhigh⟩ := abs_le.mp hk.near
  have hpower : (2 : ℚ) ^ (971 : Int) ≤ 2 ^ e := zpow_le_zpow_right₀ (by norm_num) (by omega)
  have hquotient : (limit : ℚ) - 1 / 2 ≤ x / 2 ^ e := by
    rw [hcarry] at hhigh
    linarith
  rw [le_div_iff₀ (two_zpow_pos e)] at hquotient
  have hwide : overflow ≤ (limit - 1 / 2) * 2 ^ e :=
    mul_le_mul_of_nonneg_left hpower (by norm_num [limit])
  linarith

/-- What is smaller than the overflow has a nearest double, half a unit of its last place away at
most. -/
theorem exists_ofRatio? (negative : Bool) (hnum : 0 < num) (hden : 0 < den)
    (hx : (num : ℚ) / den < overflow) :
    ∃ (f : Binary64) (e : Int), ofRatio? negative num den = some f ∧ f.negative = negative ∧
      Fitting (num / den) e ∧ |f.magnitude - num / den| ≤ 2 ^ e / 2 := by
  have he := fitting_fittingExponent hnum hden
  generalize fittingExponent num den = e at he
  have hk := nearestEven_roundedQuotient (inUnits num den e).1 (inUnits_pos num hden e)
  rw [inUnits_ratio num hden] at hk
  generalize roundedQuotient (inUnits num den e).1 (inUnits num den e).2 = k at hk
  have hunit := two_zpow_pos e
  have herror : |(k : ℚ) * 2 ^ e - num / den| ≤ 2 ^ e / 2 := by
    have hscaled : (k : ℚ) * 2 ^ e - num / den = (k - num / den / 2 ^ e) * 2 ^ e := by
      field_simp
    rw [hscaled, abs_mul, abs_of_pos hunit]
    have := mul_le_mul_of_nonneg_right hk.near hunit.le
    linarith
  have hlimit := hk.le_limit he
  have hleast := he.least
  have hrounded := ofRatio?_of_fitting negative hnum hden he hk
  by_cases hcarry : k = limit
  · have hroom := hk.exponent_le hcarry hx
    have hcanonical : Canonical half (e + 1) := ⟨by decide, by omega, by omega, .inl le_rfl⟩
    have hmagnitude : magnitude ⟨negative, half, e + 1, hcanonical⟩ = (k : ℚ) * 2 ^ e := by
      rw [magnitude, hcarry, half_eq, limit_eq, ← zpow_add₀ (by norm_num), ← zpow_add₀ (by norm_num)]
      congr 1
      ring
    refine ⟨⟨negative, half, e + 1, hcanonical⟩, e, ?_, rfl, he, ?_⟩
    · simp only [hrounded, hcarry, ↓reduceIte, ofParts?, hcanonical, ↓reduceDIte]
    · rw [hmagnitude]
      exact herror
  · have hfull : half ≤ k ∨ e = -1074 := by
      rcases he.full with hsmall | hfull
      · exact .inr hsmall
      · exact .inl (hk.half_le hfull)
    have hcanonical : Canonical k e := ⟨by omega, hleast, he.exponent_le hx, hfull⟩
    refine ⟨⟨negative, k, e, hcanonical⟩, e, ?_, rfl, he, herror⟩
    simp only [hrounded, hcarry, ↓reduceIte, ofParts?, hcanonical, ↓reduceDIte]

end

/-- How far below a double the middle between it and its neighbour lies, in units of its last place:
below a power of two the neighbour is only half as far away, unless the exponent is the least. -/
def gapBelow (f : Binary64) : ℚ := if f.significand = half ∧ f.exponent ≠ -1074 then 1 / 4 else 1 / 2

theorem gapBelow_le (f : Binary64) : f.gapBelow ≤ 1 / 2 := by
  unfold gapBelow
  split <;> norm_num

/-- The numbers that have this double as their nearest one: those between the middles to its
neighbours, and the middles themselves when the significand is even. -/
structure Rounds (f : Binary64) (x : ℚ) : Prop where
  low : f.significand - f.gapBelow ≤ x / 2 ^ f.exponent
  high : x / 2 ^ f.exponent ≤ f.significand + 1 / 2
  even : x / 2 ^ f.exponent = f.significand - f.gapBelow ∨ x / 2 ^ f.exponent = f.significand + 1 / 2 →
    f.significand % 2 = 0

namespace Rounds

variable {f : Binary64} {x : ℚ}

theorem nearestEven (h : f.Rounds x) : NearestEven f.significand (x / 2 ^ f.exponent) := by
  have hlow := h.low
  have hhigh := h.high
  have hgap := f.gapBelow_le
  have hbound : |(f.significand : ℚ) - x / 2 ^ f.exponent| ≤ 1 / 2 :=
    abs_le.mpr ⟨by linarith, by linarith⟩
  rcases hbound.lt_or_eq with hless | heq
  · exact .inl hless
  · refine .inr ⟨heq, h.even ?_⟩
    rcases (abs_eq (by norm_num)).mp heq with hbelow | habove
    · exact .inl (by linarith)
    · exact .inr (by linarith)

theorem below (h : f.Rounds x) : x < 2 ^ (f.exponent + 53) := by
  have hunit := two_zpow_pos f.exponent
  have hless : (f.significand : ℚ) + 1 ≤ limit := by exact_mod_cast f.canonical.1
  have hhigh := h.high
  rw [zpow_add₀ (by norm_num), ← limit_eq, mul_comm, ← div_lt_iff₀ hunit]
  linarith

/-- A number that is smaller than every significand of full precision allows lies just below a power
of two. -/
theorem power_of_two (h : f.Rounds x) (hexponent : f.exponent ≠ -1074)
    (hx : x < 2 ^ (f.exponent + 52)) : f.significand = half := by
  have hhalf : half ≤ f.significand := f.canonical.2.2.2.resolve_right hexponent
  have hunits : x / 2 ^ f.exponent < half := by
    rw [div_lt_iff₀ (two_zpow_pos _), half_eq, ← zpow_add₀ (by norm_num), add_comm]
    exact hx
  have hlow := h.low
  have hgap := f.gapBelow_le
  have hless : (f.significand : ℚ) < half + 1 := by linarith
  have hle : f.significand < half + 1 := by exact_mod_cast hless
  omega

/-- A number just below a power of two is rounded up to it by a carry. -/
theorem carried (h : f.Rounds x) (hexponent : f.exponent ≠ -1074)
    (hx : x < 2 ^ (f.exponent + 52)) :
    Fitting x (f.exponent - 1) ∧ NearestEven limit (x / 2 ^ (f.exponent - 1)) := by
  have hunit := two_zpow_pos f.exponent
  have hhalf := h.power_of_two hexponent hx
  have hlow : (half : ℚ) - 1 / 4 ≤ x / 2 ^ f.exponent := by
    have hgap : f.gapBelow = 1 / 4 := by rw [gapBelow, if_pos ⟨hhalf, hexponent⟩]
    rw [← hhalf, ← hgap]
    exact h.low
  have hhigh : x / 2 ^ f.exponent < half := by
    rw [div_lt_iff₀ hunit, half_eq, ← zpow_add₀ (by norm_num), add_comm]
    exact hx
  constructor
  · have hleast := f.canonical.2.1
    refine ⟨?_, by omega, .inr ?_⟩
    · have hsame : f.exponent - 1 + 53 = f.exponent + 52 := by ring
      rw [hsame]
      exact hx
    · have hsame : f.exponent - 1 + 52 = 51 + f.exponent := by ring
      have hvalue : (2 : ℚ) ^ (51 : Int) ≤ half - 1 / 4 := by norm_num [half]
      rw [hsame, zpow_add₀ (by norm_num), ← le_div_iff₀ hunit]
      linarith
  · have hdouble : x / 2 ^ (f.exponent - 1) = 2 * (x / 2 ^ f.exponent) := by
      rw [zpow_sub₀ (by norm_num), zpow_one]
      field_simp
    have hlimit : (limit : ℚ) = 2 * half := by norm_num [limit, half]
    have hbound : |(limit : ℚ) - x / 2 ^ (f.exponent - 1)| ≤ 1 / 2 := by
      rw [hdouble, hlimit]
      exact abs_le.mpr ⟨by linarith, by linarith⟩
    rcases hbound.lt_or_eq with hless | heq
    · exact .inl hless
    · exact .inr ⟨heq, rfl⟩

end Rounds

/-- The nearest double is the one among whose numbers the quotient is. -/
theorem ofRatio?_of_rounds {f : Binary64} {num den : Nat} (hnum : 0 < num) (hden : 0 < den)
    (h : f.Rounds (num / den)) : ofRatio? f.negative num den = some f := by
  by_cases hbelow : f.exponent ≠ -1074 ∧ (num : ℚ) / den < 2 ^ (f.exponent + 52)
  · obtain ⟨hexponent, hx⟩ := hbelow
    obtain ⟨hfitting, hnearest⟩ := h.carried hexponent hx
    have hnext : f.exponent - 1 + 1 = f.exponent := by ring
    rw [ofRatio?_of_fitting f.negative hnum hden hfitting hnearest, if_pos rfl, hnext,
      ← h.power_of_two hexponent hx, ofParts?, dif_pos f.canonical]
  · have hfitting : Fitting (num / den) f.exponent := by
      refine ⟨h.below, f.canonical.2.1, ?_⟩
      by_cases hexponent : f.exponent = -1074
      · exact .inl hexponent
      · exact .inr (not_lt.mp fun hx => hbelow ⟨hexponent, hx⟩)
    have hcarry : ¬f.significand = limit := Nat.ne_of_lt f.canonical.1
    rw [ofRatio?_of_fitting f.negative hnum hden hfitting h.nearestEven, if_neg hcarry, ofParts?,
      dif_pos f.canonical]

end Binary64

end MetricUpload
