namespace MetricUpload

/-- `2 ^ 53`: a significand has at most 53 bits. -/
def Binary64.limit : Nat := 9007199254740992

/-- `2 ^ 52`: the least significand of full precision. -/
def Binary64.half : Nat := 4503599627370496

/-- The significand and exponent of a finite double: full precision, or as much of it as the least
exponent leaves. -/
def Binary64.Canonical (significand : Nat) (exponent : Int) : Prop :=
  significand < Binary64.limit ∧ -1074 ≤ exponent ∧ exponent ≤ 971 ∧
    (Binary64.half ≤ significand ∨ exponent = -1074)

instance (significand : Nat) (exponent : Int) :
    Decidable (Binary64.Canonical significand exponent) := by
  unfold Binary64.Canonical
  infer_instance

/-- A finite double of magnitude `significand * 2 ^ exponent`. Zero keeps its sign. -/
structure Binary64 where
  negative : Bool
  significand : Nat
  exponent : Int
  canonical : Binary64.Canonical significand exponent
  deriving DecidableEq

namespace Binary64

/-- The whole number nearest to `num / den`, a half going to the even neighbour. -/
def roundedQuotient (num den : Nat) : Nat :=
  let whole := num / den
  let rest := num % den
  if 2 * rest < den then whole
  else if den < 2 * rest then whole + 1
  else whole + whole % 2

/-- `num / den` counted in units of `2 ^ exponent`, again as a fraction. -/
def inUnits (num den : Nat) (exponent : Int) : Nat × Nat :=
  (num * Nat.pow 2 (-exponent).toNat, den * Nat.pow 2 exponent.toNat)

/-- The exponent at which `num / den` has a whole part of 53 bits, or the least exponent when that
one is lower. -/
def fittingExponent (num den : Nat) : Int :=
  let low : Int := num.log2 - den.log2 - 53
  let units := inUnits num den low
  let exponent := if units.1 / units.2 < limit then low else low + 1
  if exponent < -1074 then -1074 else exponent

def ofParts? (negative : Bool) (significand : Nat) (exponent : Int) : Option Binary64 :=
  if h : Canonical significand exponent then some ⟨negative, significand, exponent, h⟩ else none

def zero (negative : Bool) : Binary64 := ⟨negative, 0, -1074, by decide⟩

/-- The double nearest to `num / den` with the given sign, ties to the even significand; `none` when
rounding leaves the finite range. A significand that rounding carries to `2 ^ 53` is halved. -/
def ofRatio? (negative : Bool) (num den : Nat) : Option Binary64 :=
  if num = 0 then some (zero negative)
  else
    let exponent := fittingExponent num den
    let units := inUnits num den exponent
    let significand := roundedQuotient units.1 units.2
    if significand = limit then ofParts? negative half (exponent + 1)
    else ofParts? negative significand exponent

def isZero (f : Binary64) : Bool := f.significand == 0

def num (f : Binary64) : Nat := f.significand * Nat.pow 2 f.exponent.toNat

def den (f : Binary64) : Nat := Nat.pow 2 (-f.exponent).toNat

/-- Equality of values: the two zeros are equal, all else is equal only to itself. -/
def same (f g : Binary64) : Bool := (f.isZero && g.isZero) || f == g

/-- The whole number that a double is, if it is one. -/
def toInt? (f : Binary64) : Option Int :=
  if f.num % f.den = 0 then
    let n : Int := f.num / f.den
    some (if f.negative then -n else n)
  else none

/-- Ten to the power `n`, rounded to a double; `none` from `10 ^ 309` on. -/
def powerOfTen? (n : Nat) : Option Binary64 := ofRatio? false (Nat.pow 10 n) 1

/-- The rounded product, with the sign of `f`. -/
def times? (f g : Binary64) : Option Binary64 :=
  ofRatio? f.negative (f.num * g.num) (f.den * g.den)

/-- The rounded quotient, with the sign of `f`. -/
def over? (f g : Binary64) : Option Binary64 :=
  ofRatio? f.negative (f.num * g.den) (f.den * g.num)

end Binary64

end MetricUpload
